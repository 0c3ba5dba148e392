import Aitos.Fs.Reference
import Aitos.Fs.Descriptors

/-!
# Opens that fail

`sys_open` returns -1 for many reasons.  Most of them are found out before anything has changed,
or what has changed is rolled back; this module says exactly which are not.
-/

namespace Aitos.Fs

open Framework

/-- The tables, the inodes in memory, the bitmaps and the disk are as before. -/
structure Unchanged (s s' : State) : Prop where
  fileTable : s'.fileTable = s.fileTable
  fdTable : s'.fdTable = s.fdTable
  openInode : s'.openInode = s.openInode
  inode : ∀ p < s.nextInode, s'.inode p = s.inode p
  blockBitmap : s'.blockBitmap = s.blockBitmap
  inodeBitmap : s'.inodeBitmap = s.inodeBitmap
  disk : s'.disk = s.disk

private theorem Restored.unchanged {s s' : State} (h : Restored s s') : Unchanged s s' :=
  ⟨h.fileTable, h.fdTable, h.openInode, h.inode, h.blockBitmap, h.inodeBitmap, h.disk⟩

/-- `file_table` has no free slot. -/
def State.tableFull (s : State) : Prop := s.freeSlot 3 (maxFileOpen - 3) = none

/-- The running process has no free descriptor. -/
def State.fdsFull (s : State) : Prop :=
  freeFd (s.fdTable s.cur) 3 (maxFilesOpenPerProc - 3) = none

/-- The next two requests for memory succeed. -/
def State.servesTwo (s : State) : Prop :=
  s.mem.serve s.mem.calls = true ∧ s.mem.serve (s.mem.calls + 1) = true

section Allocation

variable {s s' : State}

private theorem blockBitmapAlloc_some {r : Option UInt32} (hn : s.ndebug = false)
    (h : blockBitmapAlloc s = .ok (r, s')) : r.isSome = true ∧ s'.ndebug = false := by
  simp only [blockBitmapAlloc, bitmapScan, Code.get_bind, Code.bind_ok, assert_ok, Code.pure_ok]
    at h
  obtain ⟨found, s₁, ⟨_, s₂, ⟨rfl, hsome⟩, rfl, rfl⟩, h⟩ := h
  rw [hn] at hsome
  cases hf : firstClear s₁.blockBitmap 0 s₁.blockBits with
  | none => simp [hf] at hsome
  | some index =>
      simp only [hf, blockBitmapSet, Code.bind_ok, Code.get_bind, require_ok, Code.modify_ok,
        Code.pure_ok] at h
      obtain ⟨_, s₂, ⟨_, s₃, ⟨rfl, -⟩, rfl⟩, rfl, rfl⟩ := h
      exact ⟨rfl, hn⟩

private theorem inodeBitmapAlloc_eq {r : Option UInt32} (hn : s.ndebug = false)
    (h : inodeBitmapAlloc s = .ok (r, s')) : ∃ index, r = some (UInt32.ofNat index) ∧
      index < s.inodeBits ∧ s.inodeBitmap index = false ∧ s' = s.setInodeBit index true := by
  simp only [inodeBitmapAlloc, bitmapScan, Code.get_bind, Code.bind_ok, assert_ok, Code.pure_ok]
    at h
  obtain ⟨found, s₁, ⟨_, s₂, ⟨rfl, hsome⟩, rfl, rfl⟩, h⟩ := h
  rw [hn] at hsome
  cases hf : firstClear s₁.inodeBitmap 0 s₁.inodeBits with
  | none => simp [hf] at hsome
  | some index =>
      simp only [hf, inodeBitmapSet, Code.bind_ok, Code.get_bind, require_ok, Code.modify_ok,
        Code.pure_ok] at h
      obtain ⟨_, s₂, ⟨_, s₃, ⟨rfl, hlt⟩, rfl⟩, rfl, rfl⟩ := h
      exact ⟨index, rfl, hlt, (firstClear_some hf).2.2, rfl⟩

private theorem growDir_true {p : Ptr} {de : Bytes} {blocks : Nat → UInt32} {i : Nat} {b : Bool}
    (hn : s.ndebug = false) (h : growDir p de blocks i s = .ok (b, s')) : b = true := by
  rw [growDir] at h
  obtain ⟨r, s₁, h₁, h⟩ := Code.bind_ok.mp h
  obtain ⟨hsome, hn₁⟩ := blockBitmapAlloc_some hn h₁
  cases r with
  | none => cases hsome
  | some lba =>
      simp only [Code.get_bind, Code.bind_ok, assert_ok] at h
      obtain ⟨_, s₂, ⟨rfl, -⟩, _, s₃, h₃, h⟩ := h
      have hn₃ : s₃.ndebug = false := by
        simp only [bitmapSync, Code.get_bind, ideWrite_ok] at h₃
        rw [h₃]
        exact hn₁
      split at h
      · simp only [Code.modify_bind, Code.bind_ok, Code.pure_ok] at h
        obtain ⟨_, s₄, -, rfl, -⟩ := h
        rfl
      · split at h
        · simp only [Code.modify_bind] at h
          obtain ⟨r', s₄, h₄, h⟩ := Code.bind_ok.mp h
          have hsome' := (blockBitmapAlloc_some (s := s₃.setSector p 12 lba) hn₃ h₄).1
          cases r' with
          | none => cases hsome'
          | some lba' =>
              simp only [Code.bind_ok, Code.pure_ok] at h
              obtain ⟨_, _, -, _, _, -, _, _, -, _, _, -, rfl, -⟩ := h
              rfl
        · simp only [Code.bind_ok, Code.pure_ok] at h
          obtain ⟨_, _, -, _, _, -, rfl, -⟩ := h
          rfl

/-- The entry finds a place in the first twelve blocks, or a new block is made for it. -/
private theorem syncLoop_true {p : Ptr} {de : Bytes} {blocks : Nat → UInt32} {b : Bool}
    (hn : s.ndebug = false) (hb : blocks 12 = 0) (n : Nat) : ∀ {i : Nat}, i ≤ 12 → 12 < i + n →
      syncLoop p de blocks i n s = .ok (b, s') → b = true := by
  induction n with
  | zero =>
      intro i hi hin h
      omega
  | succ n ih =>
      intro i hi hin h
      rw [syncLoop] at h
      split at h
      · exact growDir_true hn h
      · rename_i hne
        have hlt : i ≠ 12 := fun he => hne (by rw [he, hb])
        simp only [Code.bind_ok, ideRead_ok] at h
        obtain ⟨buf, s₁, ⟨-, rfl⟩, h⟩ := h
        cases hf : freeEntry buf 0 entriesPerSec with
        | none =>
            rw [hf] at h
            exact ih (by omega) (by omega) h
        | some k =>
            simp only [hf, Code.bind_ok, Code.pure_ok] at h
            obtain ⟨_, s₂, -, rfl, -⟩ := h
            rfl

private theorem syncDirEntry_true {d : DirPtr} {de : Bytes} {b : Bool} (hn : s.ndebug = false)
    (h : syncDirEntry d de s = .ok (b, s')) : b = true := by
  simp only [syncDirEntry, Code.get_bind, Code.bind_ok, assert_ok] at h
  obtain ⟨_, s₁, ⟨rfl, -⟩, h⟩ := h
  exact syncLoop_true hn (if_neg (by decide)) 140 (by decide) (by decide) h

end Allocation

section Create

variable {s s' : State}

theorem pcbFdInstall_none {i : Nat} (h : pcbFdInstall i s = .ok (none, s')) :
    s' = s ∧ s.fdsFull := by
  rw [pcbFdInstall, Code.get_bind] at h
  cases hfd : freeFd (s.fdTable s.cur) 3 (maxFilesOpenPerProc - 3) with
  | none =>
      rw [hfd] at h
      exact ⟨(Code.pure_ok.mp h).2, hfd⟩
  | some fd =>
      simp only [hfd, Code.modify_bind, Code.pure_ok] at h
      cases h.1

theorem Restored.inodeBit {index : Nat} (hf : s.inodeBitmap index = false)
    (h : Restored (s.setInodeBit index true) s') :
    Restored s (s'.setInodeBit index false) := by
  have hbit : Function.update s'.inodeBitmap index false = s.inodeBitmap := by
    rw [h.inodeBitmap, State.setInodeBit_inodeBitmap, Function.update_idem, ← hf,
      Function.update_eq_self]
  exact ⟨⟨h.ndebug, h.part, h.disk, h.blockBitmap, hbit, h.fileTable, h.cur, h.procs, h.fdTable,
    h.fdOrigin, h.cwdInodeNr, h.serve, h.nextInode, h.nextDir, h.dir⟩, h.openInode, h.inode⟩

theorem Restored.newInode (s : State) (ino : Inode) : Restored s (s.newInode ino) := by
  refine ⟨⟨rfl, rfl, rfl, rfl, rfl, rfl, rfl, rfl, rfl, rfl, rfl, rfl, Nat.le_succ _, le_rfl,
    fun _ _ => rfl⟩, rfl, fun p hp => ?_⟩
  exact Function.update_of_ne (Nat.ne_of_lt hp) _ _

/-- A slot that was free holds a file. -/
def SlotTaken (s s' : State) : Prop :=
  ∃ i p, (s.fileTable i).fdInode = none ∧ (s'.fileTable i).fdInode = some p

private theorem SlotTaken.not_unchanged (h : SlotTaken s s') : ¬ Unchanged s s' := by
  obtain ⟨i, p, hnone, hsome⟩ := h
  intro hu
  rw [hu.fileTable, hnone] at hsome
  cases hsome

theorem SlotTaken.of_eq {s₀ s₁ : State} (h : SlotTaken s s') (h₀ : s.fileTable = s₀.fileTable)
    (h₁ : s₁.fileTable = s'.fileTable) : SlotTaken s₀ s₁ := by
  obtain ⟨i, p, hnone, hsome⟩ := h
  exact ⟨i, p, by rw [← h₀]; exact hnone, by rw [h₁]; exact hsome⟩

private theorem createIn_none {d : DirPtr} {name : List UInt8} {no : UInt32} {p : Ptr} {ino : Block}
    {i : Nat} (hn : s.ndebug = false) (h : createIn d name no p ino i s = .ok (none, s')) :
    s'.fileTable = s.fileTable ∧ s.fdsFull := by
  rw [createIn] at h
  simp only [Code.bind_ok] at h
  obtain ⟨de, s₂, h₂, synced, s₃, h₃, h⟩ := h
  have hn₂ : s₂.ndebug = false := by
    simp only [createDirEntry, Code.bind_ok, assert_ok, Code.pure_ok] at h₂
    obtain ⟨_, _, ⟨rfl, -⟩, -, rfl⟩ := h₂
    exact hn
  have hq : Quiet s s₃ :=
    trans_of Quiet (quiet_createDirEntry _ _ _ _ _ _ h₂) (quiet_syncDirEntry _ _ _ _ _ h₃)
  rw [syncDirEntry_true hn₂ h₃] at h
  simp only [↓reduceIte, Code.bind_ok, Code.get_bind, Code.modify_bind] at h
  obtain ⟨_, s₄, h₄, _, s₅, h₅, _, s₆, h₆, _, s₇, h₇, h⟩ := h
  have hq₆ : Quiet s s₆ :=
    trans_of Quiet hq (trans_of Quiet (quiet_inodeSync _ _ _ _ h₄)
      (trans_of Quiet (quiet_inodeSync _ _ _ _ h₅) (quiet_bitmapSync _ _ _ _ _ h₆)))
  have hq₇ := quiet_sysFree _ _ _ h₇
  obtain ⟨rfl, hfull⟩ := pcbFdInstall_none h
  refine ⟨hq₇.fileTable.trans hq₆.fileTable, ?_⟩
  have htable : s'.fdTable = s.fdTable := hq₇.fdTable.trans hq₆.fdTable
  have hcur : s'.cur = s.cur := hq₇.cur.trans hq₆.cur
  rw [State.fdsFull, htable, hcur] at hfull
  exact hfull

/-- The bit of the inode is given back, or the file is made and finds no descriptor. -/
private theorem createFile_none {d : DirPtr} {name : List UInt8} {flag no : UInt32} {ino : Block}
    (hn : s.ndebug = false) (h : createFile d name flag no ino s = .ok (none, s')) :
    (s.tableFull ∧ ∃ s₁, Restored s s₁ ∧ Restored (s₁.setInodeBit no.toNat false) s') ∨
      (SlotTaken s s' ∧ ¬ s.tableFull ∧ s.fdsFull) := by
  simp only [createFile, Code.get_bind, Code.modify_bind] at h
  obtain ⟨slot, s₁, h₁, h⟩ := Code.bind_ok.mp h
  obtain ⟨rfl, hslot⟩ := getFreeSlot_ok h₁
  obtain ⟨hslot', -⟩ := Code.pure_ok.mp h₁
  cases slot with
  | none =>
      simp only [inodeBitmapSet, Code.bind_ok, Code.get_bind, require_ok, Code.modify_ok,
        sysFreeBlock_ok, sysFree_ok, Code.pure_ok] at h
      obtain ⟨_, s₂, ⟨rfl, -⟩, _, s₃, ⟨_, s₄, ⟨rfl, -⟩, rfl⟩, _, s₅, rfl, -, rfl⟩ := h
      refine .inl ⟨hslot'.symm, (s.newInode (inodeInit no)).setMem
        ((s.newInode (inodeInit no)).mem.free (s.newInode (inodeInit no)).kernelHeap ino), ?_,
          Restored.free _⟩
      exact trans_of Restored (Restored.newInode s (inodeInit no)) (Restored.freeBlock _ _)
  | some i =>
      obtain ⟨-, hnone⟩ := hslot i rfl
      simp only [Code.modify_bind] at h
      obtain ⟨htable, hfull⟩ := createIn_none (by exact hn) h
      have htaken : SlotTaken s s' := by
        refine ⟨i, s.nextInode, hnone, ?_⟩
        rw [htable, State.setFile_fileTable, Function.update_self]
      refine .inr ⟨htaken, fun hf => ?_, hfull⟩
      have hsome : s.freeSlot 3 (maxFileOpen - 3) = some i := hslot'.symm
      rw [State.tableFull, hsome] at hf
      cases hf

private theorem fileCreate_none {d : DirPtr} {name : List UInt8} {flag : UInt32}
    (hn : s.ndebug = false) (h : fileCreate d name flag s = .ok (none, s')) :
    (Restored s s' ∧ (s.tableFull ∨ ¬ s.servesTwo)) ∨
      (SlotTaken s s' ∧ ¬ s.tableFull ∧ s.servesTwo ∧ s.fdsFull) := by
  rw [fileCreate, Code.get_bind] at h
  obtain ⟨ioBuf, s₁, hmalloc, h⟩ := Code.bind_ok.mp h
  obtain ⟨rfl, rfl⟩ := sysMalloc_ok.mp hmalloc
  have hr₁ := Restored.malloc s
  split at h
  · rename_i hfail
    obtain ⟨-, rfl⟩ := Code.pure_ok.mp h
    exact Or.inl ⟨hr₁, Or.inr fun hs => by rw [hs.1] at hfail; cases hfail⟩
  · rename_i hfirst
    obtain ⟨found, s₂, h₂, h⟩ := Code.bind_ok.mp h
    obtain ⟨index, rfl, hlt, hfree, rfl⟩ := inodeBitmapAlloc_eq (s := s.setMem s.malloc) hn h₂
    have hindex : (UInt32.ofNat index).toNat = index := by
      have hbits : s.inodeBits ≤ 4096 := by
        rw [State.inodeBits, s.part.layout.inodeBits]
      have hlt' : index < s.inodeBits := hlt
      rw [UInt32.toNat_ofNat']
      exact Nat.mod_eq_of_lt (by omega)
    -- whatever was done since the bit was set is undone with it
    have hback : ∀ {s₃ : State}, Restored ((s.setMem s.malloc).setInodeBit index true) s₃ →
        Restored s (s₃.setInodeBit index false) :=
      fun hr => trans_of Restored hr₁ (Restored.inodeBit hfree hr)
    simp only [Code.get_bind, Code.modify_bind] at h
    obtain ⟨newFileInode, s₃, hmalloc₂, h⟩ := Code.bind_ok.mp h
    obtain ⟨rfl, rfl⟩ := sysMalloc_ok.mp hmalloc₂
    split at h
    · rename_i hfail
      simp only [hindex, inodeBitmapSet, Code.bind_ok, Code.get_bind, require_ok, Code.modify_ok,
        sysFreeBlock_ok, Code.pure_ok] at h
      obtain ⟨_, s₄, ⟨_, s₅, ⟨rfl, -⟩, rfl⟩, _, s₆, ⟨rfl, -⟩, -, rfl⟩ := h
      have hnull := trans_of Restored
        (Restored.setPgdir ((s.setMem s.malloc).setInodeBit index true) 0) (Restored.malloc _)
      have hr := trans_of Restored (hback hnull) (Restored.freeBlock _ s.heapBlock)
      refine Or.inl ⟨hr, Or.inr fun hs => ?_⟩
      have hserved : s.mem.serve (s.mem.calls + 1) = false := hfail
      rw [hs.2] at hserved
      cases hserved
    · rename_i hsecond
      have hserves : s.servesTwo := ⟨by simpa using hfirst, by
        have hs : ¬ s.mem.serve (s.mem.calls + 1) = false := hsecond
        simpa using hs⟩
      rw [Code.modify_bind] at h
      have hthere := trans_of Restored (Restored.setPgdir ((s.setMem s.malloc).setInodeBit index true) 0)
        (trans_of Restored (Restored.malloc _) (Restored.setPgdir _ (s.mem.pgdir s.cur)))
      rcases createFile_none (by exact hn) h with ⟨hfull, s₄, hr, hr'⟩ | ⟨htaken, hfull, hfds⟩
      · rw [hindex] at hr'
        exact .inl ⟨trans_of Restored (hback (trans_of Restored hthere hr)) hr', .inl hfull⟩
      · exact .inr ⟨htaken, hfull, hserves, hfds⟩

end Create

/-- The call gets to `file_create` or `file_open`: `search_file` has ended at `r` in `s₁`. -/
def Proceeds (pathname : Path) (flags : UInt32) (s : State) (r : Searched) (s₁ : State) : Prop :=
  pathname.getLast? ≠ some slash ∧ searchFile pathname s = .ok (r, s₁) ∧
    r.fileType ≠ ftDirectory ∧
    (∃ d, pathDepthCnt pathname s = .ok (d, s) ∧ pathDepthCnt r.searchedPath s₁ = .ok (d, s₁)) ∧
    (r.inodeNo = minusOne ↔ flags &&& oCreat ≠ 0)

/-- A call that fails does so before it has taken a slot of `file_table`: a new file because the
table is full or there is no memory, and not because there is no descriptor; an existing one
because the table is full, and it is in the root directory. -/
def FailsEarly (pathname : Path) (flags : UInt32) (s : State) : Prop :=
  ∀ r s₁, Proceeds pathname flags s r s₁ →
    if flags &&& oCreat ≠ 0 then s.tableFull ∨ ¬ s₁.servesTwo ∨ ¬ s.fdsFull
    else s.tableFull ∧ r.parentDir = rootDir

section Open

variable {s s₁ s' : State}

private theorem Framed.tableFull_iff (h : Framed s s₁) : s₁.tableFull ↔ s.tableFull := by
  have hslot : ∀ n i, s₁.freeSlot i n = s.freeSlot i n := by
    intro n
    induction n with
    | zero => exact fun _ => rfl
    | succ n ih =>
        intro i
        rw [State.freeSlot, State.freeSlot, h.fileTable, ih]
  rw [State.tableFull, State.tableFull, hslot]

private theorem Framed.fdsFull_iff (h : Framed s s₁) : s₁.fdsFull ↔ s.fdsFull := by
  rw [State.fdsFull, State.fdsFull, h.fdTable, h.cur]

/-- The handle that was never closed is a reference too many. -/
private theorem Holding.unchanged_iff {d : DirPtr} (ht : Tidy s) (h : Holding s s₁ d) :
    Unchanged s s₁ ↔ d = rootDir := by
  rcases h with ⟨hd, h⟩ | ⟨hd, -, h⟩
  · exact ⟨fun _ => hd, fun _ => h.unchanged⟩
  · have hne : d ≠ rootDir := Nat.ne_of_gt (ht.rootDir.trans_le hd)
    refine ⟨fun hu => absurd ?_ hne, fun he => absurd he hne⟩
    rcases h.here with ⟨hmem, -, hp⟩ | ⟨-, hopen, -⟩
    · have hsame := hu.inode _ (ht.listed _ hmem).1
      rw [hp] at hsame
      have hcnt := congrArg Inode.iOpenCnts hsame
      simp at hcnt
    · rw [hu.openInode] at hopen
      have hlen := congrArg List.length hopen
      simp at hlen

/-- `file_open` fails because the table is full, or after it has taken a slot. -/
private theorem fileOpen_none {no flag : UInt32} (h : fileOpen no flag s = .ok (none, s')) :
    (s' = s ∧ s.tableFull) ∨ (SlotTaken s s' ∧ ¬ s.tableFull) := by
  rw [fileOpen] at h
  obtain ⟨slot, s₁, h₁, h⟩ := Code.bind_ok.mp h
  obtain ⟨rfl, hslot⟩ := getFreeSlot_ok h₁
  obtain ⟨hslot', -⟩ := Code.pure_ok.mp h₁
  cases slot with
  | none =>
      obtain ⟨-, rfl⟩ := Code.pure_ok.mp h
      exact Or.inl ⟨rfl, hslot'.symm⟩
  | some i =>
      obtain ⟨-, hfree⟩ := hslot i rfl
      have hnot : ¬ s₁.tableFull := by
        rw [State.tableFull, ← hslot']
        simp
      obtain ⟨p, s₂, h₂, h⟩ := Code.bind_ok.mp h
      simp only [Code.modify_bind, Code.get_bind] at h
      have htaken : ∀ {s₃ : State}, s₃.fileTable = (s₂.setFile i ⟨0, flag, some p⟩).fileTable →
          SlotTaken s₁ s₃ := fun he => ⟨i, p, hfree, by
        rw [he, State.setFile_fileTable, Function.update_self]⟩
      refine Or.inr ⟨?_, hnot⟩
      split at h
      · split at h
        · obtain ⟨-, rfl⟩ := Code.pure_ok.mp h
          exact htaken rfl
        · simp only [Code.modify_bind] at h
          obtain ⟨rfl, -⟩ := pcbFdInstall_none h
          exact htaken rfl
      · obtain ⟨rfl, -⟩ := pcbFdInstall_none h
        exact htaken rfl

private theorem openSearched_none {pathname : Path} {flags : UInt32} {d : Nat} {r : Searched}
    (hn : s.ndebug = false) (ht : Tidy s) (hlast : pathname.getLast? ≠ some slash)
    (hs : searchFile pathname s = .ok (r, s₁)) (hd : pathDepthCnt pathname s = .ok (d, s))
    (h : openSearched pathname flags d r s₁ = .ok (none, s')) :
    Unchanged s s' ↔ FailsEarly pathname flags s := by
  have hhold := searchFile_holding ht hs
  have hframe := hhold.framed
  -- a refusal closes the directory; it has not come to `file_create` or `file_open`
  have hrefuse : ∀ {α : Type} {a b : α},
      (do dirClose r.parentDir; return a : FsM α) s₁ = .ok (b, s') → Restored s s' := by
    intro α a b hc
    obtain ⟨_, s₂, h₂, h₃⟩ := Code.bind_ok.mp hc
    obtain ⟨-, rfl⟩ := Code.pure_ok.mp h₃
    exact dirClose_restored ht hhold h₂
  have honly : ∀ {r' s₁'}, Proceeds pathname flags s r' s₁' → r' = r ∧ s₁' = s₁ := by
    intro r' s₁' hp
    have hsame := hs.symm.trans hp.2.1
    rw [Except.ok.injEq, Prod.mk.injEq] at hsame
    exact ⟨hsame.1.symm, hsame.2.symm⟩
  have hvacuous : (¬ Proceeds pathname flags s r s₁) → Restored s s' →
      (Unchanged s s' ↔ FailsEarly pathname flags s) := by
    intro hno hr
    refine ⟨fun _ r' s₁' hp => ?_, fun _ => hr.unchanged⟩
    obtain ⟨rfl, rfl⟩ := honly hp
    exact absurd hp hno
  rw [openSearched] at h
  split at h
  · exact hvacuous (fun hp => hp.2.2.1 ‹_›) (hrefuse h)
  rename_i hfile
  obtain ⟨d', s₂, hd', h⟩ := Code.bind_ok.mp h
  obtain rfl := pathDepthCnt_same _ _ _ _ hd'
  split at h
  · rename_i hne
    refine hvacuous (fun hp => ?_) (hrefuse h)
    obtain ⟨e, he, he'⟩ := hp.2.2.2.1
    rw [hd, Except.ok.injEq, Prod.mk.injEq] at he
    rw [hd', Except.ok.injEq, Prod.mk.injEq] at he'
    exact hne (he'.1.trans he.1.symm)
  rename_i hdepth
  split at h
  · rename_i hc
    exact hvacuous (fun hp => hp.2.2.2.2.mp hc.1 hc.2) (hrefuse h)
  rename_i hc₁
  split at h
  · rename_i hc
    exact hvacuous (fun hp => hc.1 (hp.2.2.2.2.mpr hc.2)) (hrefuse h)
  rename_i hc₂
  have hproceeds : Proceeds pathname flags s r s₁ := by
    refine ⟨hlast, hs, hfile, ⟨d, hd, ?_⟩, fun he hz => hc₁ ⟨he, hz⟩, fun hz => ?_⟩
    · rw [not_not.mp hdepth] at hd'
      exact hd'
    · by_contra hno
      exact hc₂ ⟨hno, hz⟩
  split at h
  · rename_i hcreat
    obtain ⟨fd, s₂, h₂, h⟩ := Code.bind_ok.mp h
    obtain ⟨_, s₃, h₃, h⟩ := Code.bind_ok.mp h
    obtain ⟨rfl, rfl⟩ := Code.pure_ok.mp h
    rcases fileCreate_none (hframe.ndebug.trans hn) h₂ with ⟨hr, hwhy⟩ | ⟨htaken, hfree, hserve, hfull⟩
    · have hres := dirClose_restored ht (hhold.restored hr) h₃
      refine ⟨fun _ r' s₁' hp => ?_, fun _ => hres.unchanged⟩
      obtain ⟨rfl, rfl⟩ := honly hp
      rw [if_pos hcreat]
      rcases hwhy with hwhy | hwhy
      · exact Or.inl (hframe.tableFull_iff.mp hwhy)
      · exact Or.inr (Or.inl hwhy)
    · have htaken' : SlotTaken s s' :=
        htaken.of_eq hframe.fileTable (quiet_dirClose _ _ _ _ h₃).fileTable
      refine ⟨fun hu => absurd hu htaken'.not_unchanged, fun he => ?_⟩
      have hcond := he r s₁ hproceeds
      rw [if_pos hcreat] at hcond
      rcases hcond with hc | hc | hc
      · exact absurd (hframe.tableFull_iff.mpr hc) hfree
      · exact absurd hserve hc
      · exact absurd (hframe.fdsFull_iff.mp hfull) hc
  · rename_i hcreat
    rcases fileOpen_none h with ⟨rfl, hfull⟩ | ⟨htaken, hfree⟩
    · rw [hhold.unchanged_iff ht]
      refine ⟨fun hroot r' s₁' hp => ?_, fun he => ?_⟩
      · obtain ⟨rfl, rfl⟩ := honly hp
        rw [if_neg hcreat]
        exact ⟨hframe.tableFull_iff.mp hfull, hroot⟩
      · have hcond := he r _ hproceeds
        rw [if_neg hcreat] at hcond
        exact hcond.2
    · have htaken' : SlotTaken s s' := htaken.of_eq hframe.fileTable rfl
      refine ⟨fun hu => absurd hu htaken'.not_unchanged, fun he => ?_⟩
      have hcond := he r s₁ hproceeds
      rw [if_neg hcreat] at hcond
      exact absurd (hframe.tableFull_iff.mpr hcond.1) hfree

end Open

/-- A `sys_open` that returns -1 has changed nothing exactly if it failed early. -/
theorem failed_open_unchanged_iff {s s' : State} {pathname : Path} {flags : UInt32}
    (hn : s.ndebug = false) (ht : Tidy s) (h : sysOpen pathname flags s = .ok (none, s')) :
    Unchanged s s' ↔ FailsEarly pathname flags s := by
  rw [sysOpen] at h
  simp only [Code.bind_ok, require_ok] at h
  obtain ⟨_, s₀, ⟨rfl, -⟩, h⟩ := h
  split at h
  · rename_i hlast
    obtain ⟨-, rfl⟩ := Code.pure_ok.mp h
    exact ⟨fun _ r s₁ hp => absurd hlast hp.1, fun _ => (refl_of Restored s').unchanged⟩
  · rename_i hlast
    simp only [Code.bind_ok, assert_ok] at h
    obtain ⟨_, s₁, ⟨rfl, -⟩, d, s₂, hd, r, s₃, hr, h⟩ := h
    obtain rfl := pathDepthCnt_same _ _ _ _ hd
    exact openSearched_none hn ht hlast hr hd h

/-- `open("/f", O_RDWR)` on a new file system: there is no such file, and nothing changes. -/
theorem failed_open_unchanged_absent : ∃ s s', s ∈ smallSystem ∧
    sysOpen (path "/f") oRdwr s = .ok (none, s') ∧ Unchanged s s' := by
  have hplay : ∃ s ∈ smallSystem, (s.ndebug = false ∧ Tidy s) ∧
      (∃ out ∈ (sysOpen (path "/f") oRdwr s).toOption, out.1 = none) ∧
      ∃ out ∈ (searchFile (path "/f") s).toOption, out.1.inodeNo = minusOne := by decide +kernel
  obtain ⟨s, hs, ⟨hn, htidy⟩, ⟨⟨r, s'⟩, hout, hr⟩, ⟨found, s₁⟩, hsearch, hno⟩ := hplay
  have hcall : sysOpen (path "/f") oRdwr s = .ok (none, s') := by
    rw [Code.ok_of_toOption hout]
    simpa using hr
  refine ⟨s, s', hs, hcall, (failed_open_unchanged_iff hn htidy hcall).mpr ?_⟩
  -- the name is missing and the call does not ask for it to be made
  intro r' s₁' hp
  obtain ⟨-, hfind, -, -, hiff⟩ := hp
  rw [hfind] at hsearch
  cases hsearch
  exact absurd (hiff.mp hno) (by decide)

/-- Five files are open and the sixth is created: -1 comes back, and the file is there. -/
theorem failed_create_leaves_file : ∃ s s', (calls AnyMounted (fun _ => True)).Reachable s ∧
    sysOpen (path "/f") (oCreat ||| oRdwr) s = .ok (none, s') ∧ ¬ Unchanged s s' := by
  let names := [path "/a", path "/b", path "/c", path "/d", path "/e"]
  let cs : List (Pid × Call) := names.map fun n => (0, .sysOpen n (oCreat ||| oRdwr))
  have hplay : ∃ s ∈ smallSystem.bind (State.play · cs), (s.fileTable 8).fdInode = none ∧
      ∃ out ∈ (sysOpen (path "/f") (oCreat ||| oRdwr) s).toOption,
        out.1 = none ∧ (out.2.fileTable 8).fdInode ≠ none := by decide +kernel
  obtain ⟨s, hs, hfree, ⟨r, s'⟩, hout, hr, htaken⟩ := hplay
  obtain ⟨s₀, hs₀, hrun⟩ := Option.bind_eq_some_iff.mp hs
  refine ⟨s, s', ?_, ?_, ?_⟩
  · exact play_reachable cs (.init ⟨_, _, smallSystem_mounted hs₀⟩) (fun _ _ => trivial) hrun
  · rw [Code.ok_of_toOption hout]
    simpa using hr
  · intro hu
    rw [hu.fileTable] at htaken
    exact htaken hfree

end Aitos.Fs
