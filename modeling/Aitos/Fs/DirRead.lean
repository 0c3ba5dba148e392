import Aitos.Fs.DirImage
import Aitos.Fs.Read
import Aitos.Fs.Reference

/-!
# Reading a directory

`dir_read` of `fs/dir.c`, `sys_readdir` and `sys_rewinddir` of `fs/fs.c`.  Each call scans the
directory from its first block and counts the entries in use up to `dir_pos`.
-/

namespace Aitos.Fs

open Framework

/-- The entry `dir_e + k` that a caller sees through the pointer it gets. -/
def entryBytes (buf : Bytes) (k : Nat) : List UInt8 := takeBytes buf (24 * k) 24

/-- The slots of a sector from `k` on: the slot at `dir_pos`, or the position behind the sector. -/
def readSlots (buf : Bytes) (dirPos : UInt32) (k : Nat) : Nat → UInt32 → FsM (UInt32 ⊕ Nat)
  | 0, curPos => return .inl curPos
  | n + 1, curPos =>
      if (entryAt buf k).fType ≠ ftUnknown then
        if curPos < dirPos then readSlots buf dirPos (k + 1) n (curPos + 24)
        else do
          assert (curPos = dirPos)
          return .inr k
      else readSlots buf dirPos (k + 1) n curPos

@[simps -fullyApplied]
def State.setDirPos (s : State) (d : DirPtr) (pos : UInt32) : State :=
  { s with dir := Function.update s.dir d { s.dir d with dirPos := pos } }

/-- The loop of `dir_read` from block `i` on, which only `i_size` bounds. -/
def dirReadLoop (d : DirPtr) (blocks : Nat → UInt32) : Nat → Nat → UInt32 →
    FsM (Option (List UInt8))
  | 0, _, _ => fault .diverge
  | n + 1, i, curPos => do
      let s ← get
      if (s.dir d).dirPos < (s.inode (s.dir d).inode).iSize then
        require (i < 140) .outOfBounds
        if blocks i = 0 then dirReadLoop d blocks n (i + 1) curPos
        else
          let buf ← ideRead (blocks i) Bytes.zero 1
          match ← readSlots buf (s.dir d).dirPos 0 entriesPerSec curPos with
          | .inl curPos => dirReadLoop d blocks n (i + 1) curPos
          | .inr k =>
              modify fun s => s.setDirPos d ((s.dir d).dirPos + 24)
              return some (entryBytes buf k)
      else return none

def dirRead (d : DirPtr) : FsM (Option (List UInt8)) := do
  let s ← get
  dirReadLoop d ((s.inode (s.dir d).inode).allBlocks s.disk) 141 0 0

def sysReaddir (d : DirPtr) : FsM (Option (List UInt8)) := dirRead d

def sysRewinddir (d : DirPtr) : FsM Unit := modify fun s => s.setDirPos d 0

/-- `n` calls of `sys_readdir` one after the other. -/
def readdirs (d : DirPtr) : Nat → FsM (List (Option (List UInt8)))
  | 0 => return []
  | n + 1 => do
      let r ← sysReaddir d
      let rs ← readdirs d n
      return r :: rs

section Order

/-- Block order, and slot order in a block. -/
def SlotLt (x y : Nat × Nat) : Prop := x.1 < y.1 ∨ x.1 = y.1 ∧ x.2 < y.2

private theorem pairwise_slotsFrom (blocks : Nat → UInt32) (n : Nat) : ∀ i,
    (slotsFrom blocks i n).Pairwise SlotLt := by
  induction n with
  | zero =>
      intro i
      exact List.Pairwise.nil
  | succ n ih =>
      intro i
      rw [slotsFrom]
      split
      · exact ih _
      · rw [List.pairwise_append]
        refine ⟨?_, ih _, fun x hx y hy => ?_⟩
        · rw [List.pairwise_map]
          exact (List.pairwise_lt_range' 1).imp fun h => Or.inr ⟨rfl, h⟩
        · obtain ⟨k, -, rfl⟩ := List.mem_map.mp hx
          have := (mem_slotsFrom _).mp hy
          exact Or.inl (by omega)

private theorem pairwise_live (ino : Inode) (disk : Bytes) : (ino.live disk).Pairwise SlotLt :=
  (pairwise_slotsFrom _ _ _).filter _

private theorem mem_live {ino : Inode} {disk : Bytes} {x : Nat × Nat} : x ∈ ino.live disk ↔
    x ∈ ino.slots disk ∧ (ino.entryIn disk x).fType ≠ ftUnknown := by
  simp [Inode.live]

end Order

section Scan

variable {s : State} {b : Bytes} {c j : Nat}

private theorem toNat_entryPos {c : Nat} (hc : c ≤ 2940) :
    (UInt32.ofNat (24 * c)).toNat = 24 * c := by
  rw [UInt32.toNat_ofNat', Nat.mod_eq_of_lt (by omega)]

private theorem entryPos_succ (c : Nat) : UInt32.ofNat (24 * c) + 24 =
    UInt32.ofNat (24 * (c + 1)) := by
  rw [Nat.mul_add, UInt32.ofNat_add]
  rfl

/-- The slots of a sector that are in use, from `k` on. -/
def liveIn (buf : Bytes) (k n : Nat) : List Nat :=
  (List.range' k n).filter fun k => (entryAt buf k).fType ≠ ftUnknown

private theorem liveIn_succ (buf : Bytes) (k n : Nat) : liveIn buf k (n + 1) =
    if (entryAt buf k).fType ≠ ftUnknown then k :: liveIn buf (k + 1) n
    else liveIn buf (k + 1) n := by
  rw [liveIn, List.range'_succ, List.filter_cons]
  simp only [decide_eq_true_eq]
  rfl

private theorem readSlots_eq (hj : j ≤ 2940) (n : Nat) : ∀ {k c : Nat}, c ≤ j →
    readSlots b (UInt32.ofNat (24 * j)) k n (UInt32.ofNat (24 * c)) s =
      .ok (match (liveIn b k n)[j - c]? with
        | some l => .inr l
        | none => .inl (UInt32.ofNat (24 * (c + (liveIn b k n).length))), s) := by
  induction n with
  | zero =>
      intro k c _
      rfl
  | succ n ih =>
      intro k c hc
      rw [readSlots, liveIn_succ]
      split
      · have hlt : UInt32.ofNat (24 * c) < UInt32.ofNat (24 * j) ↔ c < j := by
          rw [UInt32.lt_iff_toNat_lt, toNat_entryPos (by omega), toNat_entryPos hj]
          omega
        split
        · rename_i hcj
          have hcj' := hlt.mp hcj
          obtain ⟨m, hm⟩ : ∃ m, j - c = m + 1 := ⟨j - c - 1, by omega⟩
          have hm' : j - (c + 1) = m := by omega
          rw [entryPos_succ, ih (by omega), hm, hm', List.getElem?_cons_succ, List.length_cons]
          cases (liveIn b (k + 1) n)[m]? with
          | some l => rfl
          | none =>
              dsimp only
              rw [show c + 1 + (liveIn b (k + 1) n).length =
                c + ((liveIn b (k + 1) n).length + 1) by omega]
        · rename_i hcj
          obtain rfl : c = j := by
            by_contra hne
            exact hcj (hlt.mpr (by omega))
          have hassert : assert (UInt32.ofNat (24 * c) = UInt32.ofNat (24 * c)) s = .ok ((), s) :=
            assert_ok.mpr ⟨rfl, Or.inr rfl⟩
          rw [Code.bind_of_ok hassert, Nat.sub_self, List.getElem?_cons_zero]
          rfl
      · exact ih hc

/-- The entries in use in the blocks from `i` on. -/
def liveFrom (disk : Bytes) (blocks : Nat → UInt32) (i n : Nat) : List (Nat × Nat) :=
  (slotsFrom blocks i n).filter fun x =>
    (entryAt (sectorOf disk (blocks x.1)) x.2).fType ≠ ftUnknown

private theorem liveFrom_succ (disk : Bytes) (blocks : Nat → UInt32) (i n : Nat) :
    liveFrom disk blocks i (n + 1) = if blocks i = 0 then liveFrom disk blocks (i + 1) n
      else (liveIn (sectorOf disk (blocks i)) 0 entriesPerSec).map (fun k => (i, k)) ++
        liveFrom disk blocks (i + 1) n := by
  rw [liveFrom, slotsFrom]
  split
  · rfl
  · rw [List.filter_append, List.filter_map]
    rfl

variable {d : DirPtr} {blocks : Nat → UInt32}

/-- What a caller sees of a slot. -/
def slotBytes (disk : Bytes) (blocks : Nat → UInt32) (x : Nat × Nat) : List UInt8 :=
  entryBytes (sectorOf disk (blocks x.1)) x.2

private theorem dirReadLoop_eq (hj : j < 2940) (hpos : (s.dir d).dirPos = UInt32.ofNat (24 * j))
    (hlt : (s.dir d).dirPos < (s.inode (s.dir d).inode).iSize) (n : Nat) :
    ∀ {i c : Nat} {x : Nat × Nat}, i + n = 140 → c ≤ j → (liveFrom s.disk blocks i n)[j - c]? = some x →
      dirReadLoop d blocks (n + 1) i (UInt32.ofNat (24 * c)) s =
        .ok (some (slotBytes s.disk blocks x), s.setDirPos d (UInt32.ofNat (24 * (j + 1)))) := by
  induction n with
  | zero =>
      intro i c x _ _ hx
      simp [liveFrom, slotsFrom] at hx
  | succ n ih =>
      intro i c x hi hc hx
      have hin : require (i < 140) .outOfBounds s = .ok ((), s) :=
        require_ok.mpr ⟨rfl, by omega⟩
      rw [dirReadLoop, Code.get_bind, if_pos hlt, Code.bind_of_ok hin]
      rw [liveFrom_succ] at hx
      split
      · rename_i hblock
        rw [if_pos hblock] at hx
        exact ih (by omega) hc hx
      · rename_i hblock
        rw [if_neg hblock] at hx
        have hread : ideRead (blocks i) Bytes.zero 1 s = .ok (sectorOf s.disk (blocks i), s) := rfl
        have hslots := readSlots_eq (s := s) (b := sectorOf s.disk (blocks i)) (k := 0)
          (show j ≤ 2940 by omega) entriesPerSec hc
        rw [← hpos] at hslots
        rw [Code.bind_of_ok hread, Code.bind_of_ok hslots]
        obtain ⟨ls, hls⟩ : ∃ ls, ls = liveIn (sectorOf s.disk (blocks i)) 0 entriesPerSec := ⟨_, rfl⟩
        rw [← hls] at hx ⊢
        by_cases hhere : j - c < ls.length
        · -- the entry is in this sector
          rw [List.getElem?_append_left (by simpa using hhere), List.getElem?_map] at hx
          obtain ⟨k, hk, rfl⟩ := Option.map_eq_some_iff.mp hx
          rw [hk]
          dsimp only
          rw [Code.modify_bind, hpos, entryPos_succ]
          rfl
        · rw [List.getElem?_append_right (by simpa using Nat.le_of_not_lt hhere),
            List.length_map] at hx
          rw [List.getElem?_eq_none (by omega)]
          dsimp only
          exact ih (by omega) (by omega) (by rw [← hx]; congr 1; omega)

end Scan

section Calls

variable {s : State} {d : DirPtr}

/-- The entries of a directory as `sys_readdir` is to return them. -/
def State.entries (s : State) (d : DirPtr) : List (List UInt8) :=
  ((s.dirInode d).live s.disk).map (slotBytes s.disk ((s.dirInode d).allBlocks s.disk))

private theorem live_length_le (ino : Inode) (disk : Bytes) : (ino.live disk).length ≤ 2940 := by
  have hslots : ∀ n i, (slotsFrom (ino.allBlocks disk) i n).length ≤ 21 * n := by
    intro n
    induction n with
    | zero =>
        intro i
        exact Nat.zero_le _
    | succ n ih =>
        intro i
        have := ih (i + 1)
        rw [slotsFrom]
        split
        · omega
        · rw [List.length_append, List.length_map, List.length_range', entriesPerSec]
          omega
  exact (List.length_filter_le _ _).trans (hslots 140 0)

private theorem dirRead_eq {j : Nat}
    (hsize : (s.dirInode d).iSize.toNat = 24 * (s.entries d).length)
    (hj : j ≤ (s.entries d).length) (hpos : (s.dir d).dirPos = UInt32.ofNat (24 * j)) :
    dirRead d s = .ok ((s.entries d)[j]?,
      if j < (s.entries d).length then s.setDirPos d (UInt32.ofNat (24 * (j + 1))) else s) := by
  have hlen : (s.entries d).length = ((s.dirInode d).live s.disk).length := List.length_map _
  have hle := live_length_le (s.dirInode d) s.disk
  have hlt : (s.dir d).dirPos < (s.inode (s.dir d).inode).iSize ↔ j < (s.entries d).length := by
    rw [hpos, UInt32.lt_iff_toNat_lt, toNat_entryPos (by omega)]
    change 24 * j < (s.dirInode d).iSize.toNat ↔ _
    rw [hsize]
    omega
  rw [dirRead, Code.get_bind]
  by_cases hjl : j < (s.entries d).length
  · have hx : ((s.dirInode d).live s.disk)[j]? =
        some (((s.dirInode d).live s.disk).get ⟨j, by omega⟩) := List.getElem?_eq_getElem _
    rw [if_pos hjl, State.entries, List.getElem?_map, hx, Option.map_some]
    exact dirReadLoop_eq (c := 0) (by omega) hpos (hlt.mpr hjl) 140 rfl (Nat.zero_le _) hx
  · rw [if_neg hjl, List.getElem?_eq_none (by omega), dirReadLoop, Code.get_bind,
      if_neg (mt hlt.mp hjl)]
    rfl

private theorem setDirPos_dirInode (s : State) (d d' : DirPtr) (pos : UInt32) :
    (s.setDirPos d pos).dirInode d' = s.dirInode d' := by
  rw [State.dirInode, State.setDirPos_dir, State.setDirPos_inode, Function.update_apply]
  split
  · rename_i h
    rw [h]
    rfl
  · rfl

private theorem setDirPos_entries (s : State) (d d' : DirPtr) (pos : UInt32) :
    (s.setDirPos d pos).entries d' = s.entries d' := by
  rw [State.entries, State.entries, setDirPos_dirInode]
  rfl

private theorem readdirs_eq (m : Nat) : ∀ {s : State} {j : Nat},
    (s.dirInode d).iSize.toNat = 24 * (s.entries d).length → j ≤ (s.entries d).length →
    (s.dir d).dirPos = UInt32.ofNat (24 * j) →
    ∃ s', readdirs d m s = .ok ((List.range' j m).map fun t => (s.entries d)[t]?, s') := by
  induction m with
  | zero =>
      intro s j _ _ _
      exact ⟨s, rfl⟩
  | succ m ih =>
      intro s j hsize hj hpos
      have hread : sysReaddir d s = _ := dirRead_eq hsize hj hpos
      rw [readdirs, Code.bind_of_ok hread, List.range'_succ, List.map_cons]
      split
      · rename_i hlt
        obtain ⟨s', h'⟩ := ih (s := s.setDirPos d (UInt32.ofNat (24 * (j + 1)))) (j := j + 1)
          (by rw [setDirPos_dirInode, setDirPos_entries]; exact hsize)
          (by rw [setDirPos_entries]; omega) (by simp)
        rw [setDirPos_entries] at h'
        refine ⟨s', ?_⟩
        rw [Code.bind_of_ok h']
        rfl
      · -- at the end the position stays
        rename_i hge
        obtain rfl : j = (s.entries d).length := by omega
        obtain ⟨s', h'⟩ := ih hsize le_rfl hpos
        have hnone : ∀ i, (s.entries d).length ≤ i →
            (List.range' i m).map (fun t => (s.entries d)[t]?) = List.replicate m none := by
          intro i hi
          rw [List.eq_replicate_iff]
          refine ⟨by simp, fun r hr => ?_⟩
          obtain ⟨t, ht, rfl⟩ := List.mem_map.mp hr
          have hle := (List.mem_range'_1.mp ht).1
          exact List.getElem?_eq_none (by omega)
        refine ⟨s', ?_⟩
        rw [Code.bind_of_ok h', hnone _ le_rfl, hnone _ (Nat.le_succ _)]
        rfl

/-- From position 0 on, `sys_readdir` returns the entries in use, each once and in block and slot
order, and then nothing, however often it is called. -/
theorem readdir_lists_entries
    (hsize : (s.dirInode d).iSize.toNat = 24 * ((s.dirInode d).live s.disk).length)
    (hpos : (s.dir d).dirPos = 0) (m : Nat) :
    (∃ s', readdirs d m s = .ok ((List.range m).map fun j => (((s.dirInode d).live s.disk)[j]?).map
        (slotBytes s.disk ((s.dirInode d).allBlocks s.disk)), s')) ∧
      ((s.dirInode d).live s.disk).Pairwise SlotLt ∧
      ∀ x, x ∈ (s.dirInode d).live s.disk ↔ x.1 < 140 ∧ (s.dirInode d).allBlocks s.disk x.1 ≠ 0 ∧
        x.2 < entriesPerSec ∧ ((s.dirInode d).entryIn s.disk x).fType ≠ ftUnknown := by
  refine ⟨?_, pairwise_live _ _, fun x => ?_⟩
  · have hlen : (s.entries d).length = ((s.dirInode d).live s.disk).length := List.length_map _
    obtain ⟨s', h'⟩ := readdirs_eq (s := s) (d := d) (j := 0) m (by rw [hlen]; exact hsize)
      (Nat.zero_le _) hpos
    refine ⟨s', ?_⟩
    rw [h', List.range_eq_range']
    simp only [State.entries, List.getElem?_map]
  · rw [mem_live, mem_slots, and_assoc, and_assoc]

/-- The directory with three entries, read with five calls. -/
theorem readdir_lists_filled : ∃ s', readdirs 0 5 (filledState 3) =
    .ok ((List.range 5).map fun j => (((filledInode 3).live (filledDisk 3))[j]?).map
      (slotBytes (filledDisk 3) ((filledInode 3).allBlocks (filledDisk 3))), s') := by
  refine (readdir_lists_entries (s := filledState 3) (d := 0) ?_ rfl 5).1
  exact (filled_wellFormed (by decide) (by decide)).size

/-- After `sys_rewinddir` a directory is read from its first entry, wherever the position was. -/
theorem readdirs_rewinddir
    (hsize : (s.dirInode d).iSize.toNat = 24 * ((s.dirInode d).live s.disk).length) (m : Nat) :
    ∃ s', (do sysRewinddir d; readdirs d m) s =
      .ok ((List.range' 0 m).map fun j => (s.entries d)[j]?, s') := by
  have hlen : (s.entries d).length = ((s.dirInode d).live s.disk).length := List.length_map _
  obtain ⟨s', h'⟩ := readdirs_eq (s := s.setDirPos d 0) (d := d) (j := 0) m
    (by rw [setDirPos_dirInode, setDirPos_entries, hlen]; exact hsize) (Nat.zero_le _) (by simp)
  rw [setDirPos_entries] at h'
  exact ⟨s', h'⟩

end Calls

end Aitos.Fs
