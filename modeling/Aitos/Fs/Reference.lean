import Aitos.Fs.Frame

/-!
# What a search leaves behind

`search_file` opens and closes one directory after the other.  When it returns, the only trace of
it is the reference of the handle it hands out; closing that handle brings back the list
`open_inode` and every count as they were.
-/

namespace Aitos.Fs

open Framework

/-- The list `open_inode` names each inode once, and each has an opener. -/
structure Tidy (s : State) : Prop where
  nodup : s.openInode.Nodup
  listed : ∀ p ∈ s.openInode, p < s.nextInode ∧ 0 < (s.inode p).iOpenCnts
  rootDir : rootDir < s.nextDir

instance (s : State) : Decidable (Tidy s) :=
  decidable_of_iff (s.openInode.Nodup ∧
      (∀ p ∈ s.openInode, p < s.nextInode ∧ 0 < (s.inode p).iOpenCnts) ∧ Fs.rootDir < s.nextDir)
    ⟨fun h => ⟨h.1, h.2.1, h.2.2⟩, fun h => ⟨h.nodup, h.listed, h.rootDir⟩⟩

/-- Nothing but the heap, the list `open_inode`, the inodes in memory and new handles is touched. -/
structure Framed (s s' : State) : Prop where
  ndebug : s'.ndebug = s.ndebug
  part : s'.part = s.part
  disk : s'.disk = s.disk
  blockBitmap : s'.blockBitmap = s.blockBitmap
  inodeBitmap : s'.inodeBitmap = s.inodeBitmap
  fileTable : s'.fileTable = s.fileTable
  cur : s'.cur = s.cur
  procs : s'.procs = s.procs
  fdTable : s'.fdTable = s.fdTable
  fdOrigin : s'.fdOrigin = s.fdOrigin
  cwdInodeNr : s'.cwdInodeNr = s.cwdInodeNr
  serve : s'.mem.serve = s.mem.serve
  nextInode : s.nextInode ≤ s'.nextInode
  nextDir : s.nextDir ≤ s'.nextDir
  dir : ∀ d < s.nextDir, s'.dir d = s.dir d

/-- The inodes in memory and their list are as before, too. -/
structure Restored (s s' : State) : Prop extends Framed s s' where
  openInode : s'.openInode = s.openInode
  inode : ∀ p < s.nextInode, s'.inode p = s.inode p

/-- One more reference to inode `p`, which was open before or is new. -/
structure Referenced (s s' : State) (p : Ptr) : Prop extends Framed s s' where
  others : ∀ q < s.nextInode, q ≠ p → s'.inode q = s.inode q
  held : p < s'.nextInode
  here : (p ∈ s.openInode ∧ s'.openInode = s.openInode ∧
      s'.inode p = { s.inode p with iOpenCnts := (s.inode p).iOpenCnts + 1 }) ∨
    (s.nextInode ≤ p ∧ s'.openInode = p :: s.openInode ∧ (s'.inode p).iOpenCnts = 1)

/-- The handle `d` is the root's, or the one reference that is new since `s`. -/
def Holding (s s' : State) (d : DirPtr) : Prop :=
  (d = rootDir ∧ Restored s s') ∨
    (s.nextDir ≤ d ∧ d < s'.nextDir ∧ Referenced s s' (s'.dir d).inode)

section Rules

variable {s s₁ s₂ s' : State} {p : Ptr} {d : DirPtr}

theorem Framed.refl (s : State) : Framed s s :=
  ⟨rfl, rfl, rfl, rfl, rfl, rfl, rfl, rfl, rfl, rfl, rfl, rfl, le_rfl, le_rfl, fun _ _ => rfl⟩

theorem Framed.trans (h : Framed s s₁) (h' : Framed s₁ s₂) : Framed s s₂ where
  ndebug := h'.ndebug.trans h.ndebug
  part := h'.part.trans h.part
  disk := h'.disk.trans h.disk
  blockBitmap := h'.blockBitmap.trans h.blockBitmap
  inodeBitmap := h'.inodeBitmap.trans h.inodeBitmap
  fileTable := h'.fileTable.trans h.fileTable
  cur := h'.cur.trans h.cur
  procs := h'.procs.trans h.procs
  fdTable := h'.fdTable.trans h.fdTable
  fdOrigin := h'.fdOrigin.trans h.fdOrigin
  cwdInodeNr := h'.cwdInodeNr.trans h.cwdInodeNr
  serve := h'.serve.trans h.serve
  nextInode := h.nextInode.trans h'.nextInode
  nextDir := h.nextDir.trans h'.nextDir
  dir d hd := (h'.dir d (hd.trans_le h.nextDir)).trans (h.dir d hd)

instance : IsPreorder State Restored where
  refl s := ⟨Framed.refl s, rfl, fun _ _ => rfl⟩
  trans _ _ _ h h' := ⟨h.toFramed.trans h'.toFramed, h'.openInode.trans h.openInode,
    fun p hp => (h'.inode p (hp.trans_le h.nextInode)).trans (h.inode p hp)⟩

theorem Restored.setMem (s : State) {m : Memory} (h : m.serve = s.mem.serve) :
    Restored s (s.setMem m) :=
  ⟨⟨rfl, rfl, rfl, rfl, rfl, rfl, rfl, rfl, rfl, rfl, rfl, h, le_rfl, le_rfl, fun _ _ => rfl⟩, rfl,
    fun _ _ => rfl⟩

theorem Restored.malloc (s : State) : Restored s (s.setMem s.malloc) := .setMem s rfl

theorem Restored.free (s : State) : Restored s (s.setMem s.free) := .setMem s rfl

theorem Restored.freeBlock (s : State) (b : Block) :
    Restored s (s.setMem (s.mem.free s.kernelHeap b)) := .setMem s rfl

theorem Restored.tidy (h : Restored s s') (ht : Tidy s) : Tidy s' := by
  refine ⟨by rw [h.openInode]; exact ht.nodup, ?_, ht.rootDir.trans_le h.nextDir⟩
  intro p hp
  rw [h.openInode] at hp
  obtain ⟨hlt, hpos⟩ := ht.listed p hp
  rw [h.inode p hlt]
  exact ⟨hlt.trans_le h.nextInode, hpos⟩

theorem Referenced.tidy (h : Referenced s s' p) (ht : Tidy s) : Tidy s' := by
  rcases h.here with ⟨hmem, hopen, hp⟩ | ⟨hnew, hopen, hp⟩
  · refine ⟨by rw [hopen]; exact ht.nodup, ?_, ht.rootDir.trans_le h.nextDir⟩
    intro q hq
    rw [hopen] at hq
    obtain ⟨hlt, hpos⟩ := ht.listed q hq
    refine ⟨hlt.trans_le h.nextInode, ?_⟩
    by_cases hqp : q = p
    · rw [hqp, hp]
      exact Nat.succ_pos _
    · rw [h.others q hlt hqp]
      exact hpos
  · have hfresh : p ∉ s.openInode := fun hm => absurd (ht.listed p hm).1 (Nat.not_lt.mpr hnew)
    refine ⟨by rw [hopen]; exact List.nodup_cons.mpr ⟨hfresh, ht.nodup⟩, ?_,
      ht.rootDir.trans_le h.nextDir⟩
    intro q hq
    rw [hopen] at hq
    rcases List.mem_cons.mp hq with rfl | hq
    · rw [hp]
      exact ⟨h.held, Nat.one_pos⟩
    · obtain ⟨hlt, hpos⟩ := ht.listed q hq
      rw [h.others q hlt (Nat.ne_of_lt (hlt.trans_le hnew))]
      exact ⟨hlt.trans_le h.nextInode, hpos⟩

theorem Holding.tidy (h : Holding s s' d) (ht : Tidy s) : Tidy s' := by
  rcases h with ⟨-, h⟩ | ⟨-, -, h⟩
  · exact h.tidy ht
  · exact h.tidy ht

theorem Holding.framed (h : Holding s s' d) : Framed s s' := by
  rcases h with ⟨-, h⟩ | ⟨-, -, h⟩
  · exact h.toFramed
  · exact h.toFramed

theorem Referenced.of_restored (h : Restored s s₁) (ht : Tidy s) (h' : Referenced s₁ s₂ p) :
    Referenced s s₂ p where
  toFramed := h.toFramed.trans h'.toFramed
  others q hq hne := (h'.others q (hq.trans_le h.nextInode) hne).trans (h.inode q hq)
  held := h'.held
  here := by
    rcases h'.here with ⟨hmem, hopen, hp⟩ | ⟨hnew, hopen, hp⟩
    · rw [h.openInode] at hmem hopen
      rw [h.inode p (ht.listed p hmem).1] at hp
      exact Or.inl ⟨hmem, hopen, hp⟩
    · rw [h.openInode] at hopen
      exact Or.inr ⟨h.nextInode.trans hnew, hopen, hp⟩

theorem Referenced.restored (h : Referenced s s₁ p) (h' : Restored s₁ s₂) : Referenced s s₂ p where
  toFramed := h.toFramed.trans h'.toFramed
  others q hq hne := (h'.inode q (hq.trans_le h.nextInode)).trans (h.others q hq hne)
  held := h.held.trans_le h'.nextInode
  here := by
    rw [h'.openInode, h'.inode p h.held]
    exact h.here

theorem Holding.restored (h : Holding s s₁ d) (h' : Restored s₁ s₂) : Holding s s₂ d := by
  rcases h with ⟨hd, h⟩ | ⟨hd, hd', h⟩
  · exact Or.inl ⟨hd, trans_of Restored h h'⟩
  · refine Or.inr ⟨hd, hd'.trans_le h'.nextDir, ?_⟩
    rw [h'.dir d hd']
    exact h.restored h'

end Rules

section Functions

variable {s s₁ s' : State} {p : Ptr} {d : DirPtr}

theorem restored_sysMalloc : Keeps Restored sysMalloc := by
  intro s b s' h
  obtain ⟨-, rfl⟩ := sysMalloc_ok.mp h
  exact .malloc s

private theorem restored_sysFree : Keeps Restored sysFree := by
  intro s u s' h
  obtain rfl := sysFree_ok.mp h
  exact .free s

theorem Restored.setPgdir (s : State) (pgdir : Nat) : Restored s (s.setPgdir pgdir) := .setMem s rfl

private theorem restored_setPgdir (pgdir : Nat) :
    Keeps Restored (modify fun s => s.setPgdir pgdir : FsM Unit) :=
  Keeps.modify fun s => .setPgdir s pgdir

private theorem restored_inKernelHeap {α : Type} {c : FsM α} (hc : Keeps Restored c) :
    Keeps Restored (inKernelHeap c) :=
  Keeps.get.bind fun _ => Keeps.get.bind fun _ => (restored_setPgdir 0).bind fun _ =>
    hc.bind fun _ => (restored_setPgdir _).bind fun _ => Keeps.pure

private theorem restored_require (c : Prop) [Decidable c] (e : Halt) :
    Keeps Restored (require c e) := by
  intro s u s' h
  obtain ⟨rfl, -⟩ := require_ok.mp h
  exact refl_of Restored _

private theorem restored_assert (c : Prop) [Decidable c] : Keeps Restored (assert c) := by
  intro s u s' h
  obtain ⟨rfl, -⟩ := assert_ok.mp h
  exact refl_of Restored _

private theorem restored_ideRead (lba : UInt32) (buf : Bytes) (n : Nat) :
    Keeps Restored (ideRead lba buf n) := by
  intro s b s' h
  obtain ⟨-, rfl⟩ := ideRead_ok.mp h
  exact refl_of Restored _

private theorem restored_inodeLocate (n : UInt32) : Keeps Restored (inodeLocate n) :=
  (restored_assert _).bind fun _ => Keeps.get.bind fun _ => Keeps.pure

theorem restored_searchDirEntry (d : DirPtr) (name : List UInt8) :
    Keeps Restored (searchDirEntry d name) := by
  refine restored_sysMalloc.bind fun _ => ?_
  split
  · exact Keeps.pure
  · exact restored_sysMalloc.bind fun _ => (restored_require _ _).bind fun _ =>
      Keeps.get.bind fun _ => restored_sysFree.bind fun _ => restored_sysFree.bind fun _ =>
        Keeps.pure

private theorem referenced_countUp (ht : Tidy s) (hp : p ∈ s.openInode) :
    Referenced s (s.countUp p) p where
  toFramed := ⟨rfl, rfl, rfl, rfl, rfl, rfl, rfl, rfl, rfl, rfl, rfl, rfl, le_rfl, le_rfl,
    fun _ _ => rfl⟩
  others _ _ hne := Function.update_of_ne hne _ _
  held := (ht.listed p hp).1
  here := Or.inl ⟨hp, rfl, Function.update_self _ _ _⟩

private theorem referenced_pushInode (s : State) (ino : Inode) :
    Referenced s (s.pushInode ino.opened) s.nextInode where
  toFramed := ⟨rfl, rfl, rfl, rfl, rfl, rfl, rfl, rfl, rfl, rfl, rfl, rfl, Nat.le_succ _, le_rfl,
    fun _ _ => rfl⟩
  others _ _ hne := Function.update_of_ne hne _ _
  held := Nat.lt_succ_self _
  here := Or.inr ⟨le_rfl, rfl, by simp [Inode.opened]⟩

theorem inodeOpen_referenced {n : UInt32} (ht : Tidy s) (h : inodeOpen n s = .ok (p, s')) :
    Referenced s s' p := by
  rw [inodeOpen, Code.get_bind] at h
  cases hfind : s.findInode n with
  | some q =>
      simp only [hfind, Code.modify_bind, Code.pure_ok] at h
      obtain ⟨rfl, rfl⟩ := h
      exact referenced_countUp ht (List.mem_of_find?_eq_some hfind)
  | none =>
      simp only [hfind, Code.bind_ok, Code.get_bind, Code.modify_bind] at h
      obtain ⟨_, s₁, h₁, _, s₂, h₂, _, s₃, h₃, _, s₄, h₄, _, s₅, h₅, _, s₆, h₆, _, s₇, h₇, h⟩ := h
      obtain ⟨rfl, rfl⟩ := Code.pure_ok.mp h
      have hr : Restored s s₆ :=
        trans_of Restored (restored_inodeLocate _ _ _ _ h₁) (trans_of Restored
          (restored_inKernelHeap restored_sysMalloc _ _ _ h₂)
            (trans_of Restored (restored_sysMalloc _ _ _ h₃)
            (trans_of Restored (restored_require _ _ _ _ _ h₄) (trans_of Restored
              (restored_ideRead _ _ _ _ _ _ h₅) (restored_require _ _ _ _ _ h₆)))))
      have hpush := (referenced_pushInode s₆ _).restored (restored_sysFree _ _ _ h₇)
      exact hpush.of_restored hr ht

theorem inodeClose_restored {u : Unit} (ht : Tidy s) (h : Referenced s s₁ p)
    (h' : inodeClose p s₁ = .ok (u, s')) : Restored s s' := by
  have hframed : ∀ {s₂ : State}, s₂.openInode = s.openInode →
      (∀ q < s.nextInode, s₂.inode q = s.inode q) → Framed s₁ s₂ → Restored s s₂ :=
    fun ho hi hf => ⟨h.toFramed.trans hf, ho, hi⟩
  have hset : ∀ ino : Inode, Framed s₁ (s₁.setInode p ino) := fun ino =>
    ⟨rfl, rfl, rfl, rfl, rfl, rfl, rfl, rfl, rfl, rfl, rfl, rfl, le_rfl, le_rfl, fun _ _ => rfl⟩
  simp only [inodeClose, Code.modify_bind, Code.get_bind] at h'
  rcases h.here with ⟨hmem, hopen, hp⟩ | ⟨hnew, hopen, hone⟩
  · -- it was open before: the count goes back to what it was
    have hpos := (ht.listed p hmem).2
    have hback : (s₁.inode p).countDown = s.inode p := by
      rw [hp, Inode.countDown]
      simp
    rw [hback] at h'
    have hcnt : ((s₁.setInode p (s.inode p)).inode p).iOpenCnts ≠ 0 := by
      simp [Nat.ne_of_gt hpos]
    rw [if_neg hcnt] at h'
    obtain ⟨-, rfl⟩ := Code.pure_ok.mp h'
    refine hframed hopen ?_ (hset _)
    intro q hq
    by_cases hqp : q = p
    · rw [hqp]
      exact Function.update_self _ _ _
    · exact (Function.update_of_ne hqp _ _).trans (h.others q hq hqp)
  · -- it was not: the inode leaves the list again
    have hzero : ((s₁.setInode p (s₁.inode p).countDown).inode p).iOpenCnts = 0 := by
      simp [Inode.countDown, hone]
    rw [if_pos hzero] at h'
    simp only [Code.modify_bind, inKernelHeap_sysFree_ok] at h'
    subst h'
    refine ⟨?_, ?_, ?_⟩
    · exact h.toFramed.trans ⟨rfl, rfl, rfl, rfl, rfl, rfl, rfl, rfl, rfl, rfl, rfl, rfl, le_rfl,
        le_rfl, fun _ _ => rfl⟩
    · change s₁.openInode.erase p = s.openInode
      rw [hopen, List.erase_cons_head]
    · intro q hq
      have hne : q ≠ p := Nat.ne_of_lt (hq.trans_le hnew)
      exact (Function.update_of_ne hne _ _).trans (h.others q hq hne)

theorem dirOpen_holding {n : UInt32} (ht : Tidy s) (hr : Restored s s₁)
    (h : dirOpen n s₁ = .ok (d, s')) : Holding s s' d ∧ d ≠ rootDir := by
  simp only [dirOpen, Code.bind_ok, Code.get_bind, Code.modify_bind, Code.pure_ok] at h
  obtain ⟨_, s₂, h₂, p, s₃, h₃, _, s₄, h₄, rfl, rfl⟩ := h
  have hr₂ := trans_of Restored hr (restored_sysMalloc _ _ _ h₂)
  have href := (inodeOpen_referenced (hr₂.tidy ht) h₃).of_restored hr₂ ht
  have href₄ := href.restored (restored_require _ _ _ _ _ h₄)
  have hdir : ((s₄.pushDir p).dir s₄.nextDir).inode = p := by simp
  refine ⟨Or.inr ⟨href₄.nextDir, Nat.lt_succ_self _, ?_⟩, ?_⟩
  · rw [hdir]
    refine href₄.restored ⟨⟨rfl, rfl, rfl, rfl, rfl, rfl, rfl, rfl, rfl, rfl, rfl, rfl, le_rfl,
      Nat.le_succ _, ?_⟩, rfl, fun _ _ => rfl⟩
    exact fun q hq => Function.update_of_ne (Nat.ne_of_lt hq) _ _
  · exact Nat.ne_of_gt (ht.rootDir.trans_le href₄.nextDir)

theorem dirClose_restored {u : Unit} (ht : Tidy s) (h : Holding s s₁ d)
    (h' : dirClose d s₁ = .ok (u, s')) : Restored s s' := by
  rw [dirClose] at h'
  rcases h with ⟨rfl, h⟩ | ⟨hd, -, h⟩
  · rw [if_pos rfl] at h'
    obtain ⟨-, rfl⟩ := Code.pure_ok.mp h'
    exact h
  · have hne : d ≠ rootDir := Nat.ne_of_gt (ht.rootDir.trans_le hd)
    rw [if_neg hne, Code.get_bind] at h'
    obtain ⟨_, s₂, h₂, h₃⟩ := Code.bind_ok.mp h'
    exact trans_of Restored (inodeClose_restored ht h h₂) (restored_sysFree _ _ _ h₃)

private theorem searchLoop_holding (ht : Tidy s) (n : Nat) : ∀ {s₁ : State} {subPath : Option Path}
    {name : Bytes} {d : DirPtr} {no : UInt32} {dirE : Option DirEntry} {searched : Path}
    {r : Searched}, Holding s s₁ d →
      searchLoop n subPath name d no dirE searched s₁ = .ok (r, s') → Holding s s' r.parentDir := by
  induction n with
  | zero =>
      intro s₁ subPath name d no dirE searched r _ h
      exact (fault_ok.mp h).elim
  | succ n ih =>
      intro s₁ subPath name d no dirE searched r hd h
      rw [searchLoop] at h
      split at h
      · obtain ⟨_, s₂, h₂, h⟩ := Code.bind_ok.mp h
        obtain ⟨d', s₃, h₃, h⟩ := Code.bind_ok.mp h
        have hhold := (dirOpen_holding ht (dirClose_restored ht hd h₂) h₃).1
        cases dirE with
        | none => exact (fault_ok.mp h).elim
        | some e =>
            obtain ⟨rfl, rfl⟩ := Code.pure_ok.mp h
            exact hhold
      · simp only [Code.bind_ok, assert_ok, require_ok] at h
        obtain ⟨_, s₂, ⟨rfl, -⟩, _, s₃, ⟨rfl, -⟩, found, s₄, h₄, h⟩ := h
        have hd₄ := hd.restored (restored_searchDirEntry _ _ _ _ _ h₄)
        cases found with
        | none =>
            obtain ⟨rfl, rfl⟩ := Code.pure_ok.mp h
            exact hd₄
        | some e =>
            simp only at h
            split at h
            · simp only [Code.get_bind] at h
              obtain ⟨_, s₅, h₅, h⟩ := Code.bind_ok.mp h
              obtain ⟨d', s₆, h₆, h⟩ := Code.bind_ok.mp h
              exact ih (dirOpen_holding ht (dirClose_restored ht hd₄ h₅) h₆).1 h
            · split at h
              · obtain ⟨rfl, rfl⟩ := Code.pure_ok.mp h
                exact hd₄
              · exact ih hd₄ h

theorem searchFile_holding {pathname : Path} {r : Searched} (ht : Tidy s)
    (h : searchFile pathname s = .ok (r, s')) : Holding s s' r.parentDir := by
  have hroot : Holding s s rootDir := Or.inl ⟨rfl, refl_of Restored s⟩
  rw [searchFile] at h
  split at h
  · obtain ⟨rfl, rfl⟩ := Code.pure_ok.mp h
    exact hroot
  · simp only [Code.bind_ok, assert_ok] at h
    obtain ⟨_, s₁, ⟨rfl, -⟩, h⟩ := h
    exact searchLoop_holding ht _ hroot h

end Functions

end Aitos.Fs
