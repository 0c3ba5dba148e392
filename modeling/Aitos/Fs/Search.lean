import Aitos.Fs.Reference
import Aitos.Fs.System
import Aitos.Fs.Tree

/-!
# What `search_file` finds

With memory at hand, the search visits directories of the tree one after the other, always through a
handle on the inode as the tree has it.  So what it returns depends on the tree only: `walk` computes
it without touching the state.
-/

namespace Aitos.Fs

open Framework

/-- `sys_malloc` never fails. -/
def State.Served (s : State) : Prop := ∀ k, s.mem.serve k = true

theorem Mounted.served {part : Partition} {disk : Bytes} {s : State} (h : Mounted part disk s) :
    s.Served := by
  obtain ⟨s₀, procs, hopen, rfl⟩ := h
  have htidy : Tidy (mountPartition part disk) := by
    refine ⟨List.nodup_nil, fun p hp => ?_, Nat.one_pos⟩
    cases hp
  obtain ⟨p, s₁, h₁, h₂⟩ := Code.bind_ok.mp hopen
  have hserve := (inodeOpen_referenced htidy h₁).serve
  rw [Code.modify_ok.mp h₂]
  intro k
  change s₁.mem.serve k = true
  rw [hserve]
  rfl

/-- No call decides whether `sys_malloc` succeeds. -/
def SameServe (s s' : State) : Prop := s'.mem.serve = s.mem.serve

instance : IsPreorder State SameServe where
  refl _ := rfl
  trans _ _ _ h h' := Eq.trans h' h

theorem stable_sameServe : Stable SameServe where
  mem _ _ h := h
  disk _ _ _ _ := rfl
  blockBit _ _ _ := rfl
  inodeBit _ _ _ := rfl
  sector _ _ _ _ := rfl

theorem stableFiles_sameServe : StableFiles SameServe where
  toStable := stable_sameServe
  inodeOpen := stable_sameServe.inodeOpen (fun _ _ => rfl) fun _ _ => rfl
  inodeClose := stable_sameServe.inodeClose (fun _ _ => rfl) fun _ _ => rfl
  pushDir _ _ := rfl
  setFile _ _ _ := rfl
  setFd _ _ _ _ _ := rfl
  setDeny _ _ _ := rfl
  newInode _ _ := rfl
  listInode _ _ := rfl

theorem sameServe_sysOpen (pathname : Path) (flags : UInt32) :
    Keeps SameServe (sysOpen pathname flags) := by
  refine stableFiles_sameServe.sysOpen (.self _) fun _ d name => ?_
  refine stableFiles_sameServe.fileCreate (.self _) (fun p lba buf k de => ?_) _ _ _
  exact (stable_sameServe.ideWrite _ _ _).bind fun _ => Keeps.modify fun _ => rfl

theorem State.Served.same {s s' : State} (hs : s.Served) (h : SameServe s s') : s'.Served := by
  intro k
  rw [h]
  exact hs k

/-- What the search returns, apart from the handle. -/
structure Found where
  inodeNo : UInt32
  searchedPath : Path
  fileType : UInt32

/-- The loop of `search_file` on the tree: directory `n` is searched.  There is no result where the
code stops. -/
def walk (s : State) : Nat → Option Path → Bytes → UInt32 → Option DirEntry → Path → Option Found
  | 0, _, _, _, _, _ => none
  | k + 1, subPath, name, n, dirE, searched =>
      if name 0 = 0 then dirE.map fun e => ⟨e.iNo, searched, ftDirectory⟩
      else if (searched ++ slash :: cstr name 512).length < 512 then
        match s.find n (cstr name 512) with
        | none => some ⟨minusOne, searched ++ slash :: cstr name 512, ftUnknown⟩
        | some e =>
            let parsed := subPath.elim ⟨[], none⟩ pathParse
            let name' := storeName (name.fill 0 16 0) parsed.component
            if e.fType = ftDirectory then
              walk s k parsed.rest name' e.iNo (some e) (searched ++ slash :: cstr name 512)
            else if e.fType = ftRegular then
              some ⟨e.iNo, searched ++ slash :: cstr name 512, ftRegular⟩
            else walk s k parsed.rest name' n (some e) (searched ++ slash :: cstr name 512)
      else none

section Handles

variable {s s₁ s₂ s' : State} {d : DirPtr} {n : UInt32}

/-- The handle `d` is on the directory `n` as the tree of `s` has it. -/
structure OnDir (s s₁ : State) (d : DirPtr) (n : UInt32) : Prop where
  holding : Holding s s₁ d
  iNo : (s₁.dirInode d).iNo = n
  iSectors : (s₁.dirInode d).iSectors = (s.inodeOf n).iSectors

theorem State.Served.framed (hs : s.Served) (h : Framed s s') : s'.Served := by
  intro k
  rw [h.serve]
  exact hs k

theorem Tidy.root_lt (ht : Tidy s) (hroot : s.findInode 0 = some (s.dir Fs.rootDir).inode) :
    (s.dir Fs.rootDir).inode < s.nextInode :=
  (ht.listed _ (List.mem_of_find?_eq_some hroot)).1

theorem Holding.ptr (ht : Tidy s) (hroot : (s.dir rootDir).inode < s.nextInode)
    (h : Holding s s₁ d) : d < s₁.nextDir ∧ (s₁.dir d).inode < s₁.nextInode := by
  rcases h with ⟨rfl, h⟩ | ⟨-, hd, h⟩
  · refine ⟨ht.rootDir.trans_le h.nextDir, ?_⟩
    rw [h.dir rootDir ht.rootDir]
    exact hroot.trans_le h.nextInode
  · exact ⟨hd, h.held⟩

theorem Holding.dirInode (ht : Tidy s) (hroot : (s.dir rootDir).inode < s.nextInode)
    (h : Holding s s₁ d) (h' : Restored s₁ s₂) : s₂.dirInode d = s₁.dirInode d := by
  obtain ⟨hd, hp⟩ := h.ptr ht hroot
  rw [State.dirInode, h'.dir d hd, h'.inode _ hp, State.dirInode]

theorem OnDir.restored (ht : Tidy s) (hroot : s.findInode 0 = some (s.dir rootDir).inode)
    (h : OnDir s s₁ d n) (h' : Restored s₁ s₂) : OnDir s s₂ d n := by
  have hsame := h.holding.dirInode ht (ht.root_lt hroot) h'
  refine ⟨h.holding.restored h', ?_, ?_⟩
  · rw [hsame]
    exact h.iNo
  · rw [hsame]
    exact h.iSectors

theorem OnDir.root (hs : WellFormedTree s) : OnDir s s rootDir 0 := by
  have hnum := (hs.number .root).2
  have hinode : s.inodeOf 0 = s.dirInode rootDir := by
    rw [State.inodeOf, hs.rootDir, State.dirInode]
  refine ⟨Or.inl ⟨rfl, refl_of Restored s⟩, ?_, ?_⟩
  · rw [← hinode]
    exact hnum
  · rw [hinode]

theorem searchDirEntry_returns (hmem : s.Served) (d : DirPtr) (name : List UInt8) :
    ∃ s', searchDirEntry d name s = .ok ((s.dirInode d).lookup s.disk name, s') := by
  have hserve : ∀ k, (s.setMem s.malloc).mem.serve k = true := hmem
  obtain ⟨s₁, hs₁⟩ : ∃ s₁, s₁ = (s.setMem s.malloc).setMem (s.setMem s.malloc).malloc := ⟨_, rfl⟩
  refine ⟨(s₁.setMem s₁.free).setMem (s₁.setMem s₁.free).free, ?_⟩
  simp only [searchDirEntry, Code.bind_ok, sysMalloc_ok]
  refine ⟨_, _, ⟨rfl, rfl⟩, ?_⟩
  rw [hmem, if_neg (by decide)]
  simp only [Code.bind_ok, sysMalloc_ok, require_ok, Code.get_bind, sysFree_ok, Code.pure_ok]
  rw [hs₁]
  exact ⟨_, _, ⟨rfl, rfl⟩, (), _, ⟨rfl, hserve _⟩, (), _, rfl, (), _, rfl, rfl, rfl⟩

private theorem searchDirEntry_onDir (ht : Tidy s)
    (hroot : s.findInode 0 = some (s.dir rootDir).inode)
    (hmem : s.Served) (h : OnDir s s₁ d n) (name : List UInt8) :
    ∃ s₂, searchDirEntry d name s₁ = .ok (s.find n name, s₂) ∧ OnDir s s₂ d n := by
  obtain ⟨s₂, h₂⟩ := searchDirEntry_returns (hmem.framed h.holding.framed) d name
  have hfind : (s₁.dirInode d).lookup s₁.disk name = s.find n name := by
    rw [h.holding.framed.disk, lookup_congr h.iSectors, State.find]
  refine ⟨s₂, ?_, h.restored ht hroot (restored_searchDirEntry _ _ _ _ _ h₂)⟩
  rw [h₂, hfind]

theorem inodeClose_returns (p : Ptr) (s : State) : ∃ s', inodeClose p s = .ok ((), s') := by
  rw [inodeClose, Code.modify_bind, Code.get_bind]
  split
  · exact ⟨_, rfl⟩
  · exact ⟨_, rfl⟩

theorem dirClose_returns (d : DirPtr) (s : State) : ∃ s', dirClose d s = .ok ((), s') := by
  rw [dirClose]
  split
  · exact ⟨_, rfl⟩
  · obtain ⟨s₁, h₁⟩ := inodeClose_returns (s.dir d).inode s
    refine ⟨s₁.setMem s₁.free, ?_⟩
    rw [Code.get_bind, Code.bind_ok]
    exact ⟨_, s₁, h₁, sysFree_ok.mpr rfl⟩

theorem Restored.findInode (ht : Tidy s) (h : Restored s s₁) (n : UInt32) :
    s₁.findInode n = s.findInode n := by
  rw [State.findInode, State.findInode, h.openInode]
  apply List.find?_congr
  intro p hp
  rw [h.inode p (ht.listed p hp).1]

theorem Framed.slot (h : Framed s s₁) (n : Nat) : s₁.slot n = s.slot n := by
  rw [State.slot, State.slot, h.disk, h.part]

theorem inodeOpen_returns (hmem : s.Served) (hn : n.toNat < 4096) :
    ∃ p s', inodeOpen n s = .ok (p, s') ∧
      ((s.findInode n = some p ∧ s' = s.countUp p) ∨
        (s.findInode n = none ∧ s'.inode p = s.load n.toNat)) := by
  cases hfind : s.findInode n with
  | some p =>
      exact ⟨p, _, (inodeOpen_ok hn).mpr (Or.inl ⟨hfind, rfl⟩), Or.inl ⟨rfl, rfl⟩⟩
  | none =>
      refine ⟨_, _, (inodeOpen_ok hn).mpr (Or.inr ⟨hfind, rfl, rfl, hmem _, hmem _⟩), Or.inr ?_⟩
      exact ⟨rfl, Function.update_self _ _ _⟩

theorem dirOpen_returns (hmem : s.Served) (hn : n.toNat < 4096) :
    ∃ d s', dirOpen n s = .ok (d, s') ∧
      ((∃ p, s.findInode n = some p ∧ (s'.dirInode d).iNo = (s.inode p).iNo ∧
          (s'.dirInode d).iSectors = (s.inode p).iSectors) ∨
        (s.findInode n = none ∧ s'.dirInode d = s.load n.toNat)) := by
  have hmem₁ : (s.setMem s.malloc).Served := hmem
  obtain ⟨p, s₁, h₁, hcases⟩ := inodeOpen_returns hmem₁ hn
  have hinode : (s₁.pushDir p).dirInode s₁.nextDir = s₁.inode p := by simp [State.dirInode]
  refine ⟨s₁.nextDir, s₁.pushDir p, ?_, ?_⟩
  · simp only [dirOpen, Code.bind_ok, sysMalloc_ok, require_ok, Code.get_bind, Code.modify_bind,
      Code.pure_ok]
    exact ⟨_, _, ⟨rfl, rfl⟩, p, s₁, h₁, (), s₁, ⟨rfl, hmem _⟩, rfl, rfl⟩
  · rw [hinode]
    rcases hcases with ⟨hfind, rfl⟩ | ⟨hfind, hload⟩
    · refine Or.inl ⟨p, hfind, ?_, ?_⟩
      · simp [State.countUp]
      · simp [State.countUp]
    · exact Or.inr ⟨hfind, hload⟩

private theorem dirOpen_onDir (ht : Tidy s) (hs : WellFormedTree s) (hmem : s.Served)
    (h : Restored s s₁) (hn : s.IsDir n) : ∃ d s₂, dirOpen n s₁ = .ok (d, s₂) ∧ OnDir s s₂ d n := by
  obtain ⟨hlt, hno⟩ := hs.number hn
  obtain ⟨d, s₂, h₂, hcases⟩ := dirOpen_returns (hmem.framed h.toFramed) hlt
  rw [h.findInode ht] at hcases
  suffices hsame : (s₂.dirInode d).iNo = n ∧ (s₂.dirInode d).iSectors = (s.inodeOf n).iSectors from
    ⟨d, s₂, h₂, (dirOpen_holding ht h h₂).1, hsame.1, hsame.2⟩
  rw [State.inodeOf] at hno ⊢
  rcases hcases with ⟨p, hfind, hiNo, hsec⟩ | ⟨hfind, hload⟩
  · have hp := (ht.listed p (List.mem_of_find?_eq_some hfind)).1
    simp only [hfind] at hno ⊢
    rw [h.inode p hp] at hiNo hsec
    exact ⟨hiNo.trans hno, hsec⟩
  · simp only [hfind] at hno ⊢
    rw [hload, State.load, h.slot]
    exact ⟨hno, rfl⟩

end Handles

section Loop

variable {s s₁ : State} {d : DirPtr} {n no : UInt32}

/-- Whatever the code does, it returns exactly when there is a result, and then this result. -/
def Computes (s : State) (m : FsM Searched) (s₁ : State) : Option Found → Prop
  | none => ∀ r s', m s₁ ≠ .ok (r, s')
  | some f => ∃ d s', m s₁ = .ok (⟨f.inodeNo, f.searchedPath, d, f.fileType⟩, s') ∧ Holding s s' d

/-- The code that is left computes the result when the code before it returns. -/
theorem Computes.bind {α : Type} {m : FsM α} {f : α → FsM Searched} {a : α} {s₂ : State}
    {r : Option Found} (h : m s₁ = .ok (a, s₂)) (h' : Computes s (f a) s₂ r) :
    Computes s (m >>= f) s₁ r := by
  cases r with
  | none =>
      intro r s'
      rw [Code.bind_of_ok h]
      exact h' r s'
  | some found =>
      obtain ⟨d, s', h', hold⟩ := h'
      exact ⟨d, s', (Code.bind_of_ok h).trans h', hold⟩

/-- The loop of `search_file` computes `walk`. -/
private theorem searchLoop_computes (ht : Tidy s) (hs : WellFormedTree s) (hmem : s.Served)
    (k : Nat) : ∀ {s₁ : State} {d : DirPtr} {n no : UInt32} (subPath : Option Path) (name : Bytes)
      (dirE : Option DirEntry) (searched : Path), OnDir s s₁ d n → s.IsDir n → s.IsDir no →
      Computes s (searchLoop k subPath name d no dirE searched) s₁
        (walk s k subPath name n dirE searched) := by
  induction k with
  | zero =>
      intro s₁ d n no subPath name dirE searched _ _ _ r s' h
      exact fault_ok.mp h
  | succ k ih =>
      intro s₁ d n no subPath name dirE searched hd hn hno
      rw [searchLoop, walk]
      split
      · -- the last name was found: the handle goes back to the parent
        obtain ⟨s₂, h₂⟩ := dirClose_returns d s₁
        apply Computes.bind h₂
        have hrest := dirClose_restored ht hd.holding h₂
        obtain ⟨d', s₃, h₃, hd'⟩ := dirOpen_onDir ht hs hmem hrest hno
        apply Computes.bind h₃
        cases dirE with
        | none =>
            intro r s' h
            exact fault_ok.mp h
        | some e => exact ⟨d', s₃, rfl, hd'.holding⟩
      · rename_i hname
        split
        · rename_i hlen
          have hassert : assert (searched.length < 512) s₁ = .ok ((), s₁) :=
            assert_ok.mpr ⟨rfl, Or.inr (by rw [List.length_append] at hlen; omega)⟩
          have hrequire : require ((searched ++ slash :: cstr name 512).length < 512) .outOfBounds s₁ =
              .ok ((), s₁) := require_ok.mpr ⟨rfl, hlen⟩
          apply Computes.bind hassert
          apply Computes.bind hrequire
          obtain ⟨s₂, h₂, hd₂⟩ := searchDirEntry_onDir ht hs.rootDir hmem hd (cstr name 512)
          apply Computes.bind h₂
          cases hfind : s.find n (cstr name 512) with
          | none => exact ⟨d, s₂, rfl, hd₂.holding⟩
          | some e =>
              dsimp only
              split
              · rename_i hdir
                have hchild : e.child = some e.iNo := by rw [DirEntry.child, if_pos hdir]
                have hentry : s.Entry n (cstr name 512) e := hasEntry_of_lookup hfind
                have he : s.IsDir e.iNo := .entry hn (cstr_ne_nil hname) hentry hchild
                apply Computes.bind (Code.get_ok.mpr ⟨rfl, rfl⟩)
                obtain ⟨s₃, h₃⟩ := dirClose_returns d s₂
                apply Computes.bind h₃
                have hrest := dirClose_restored ht hd₂.holding h₃
                obtain ⟨d', s₄, h₄, hd'⟩ := dirOpen_onDir ht hs hmem hrest he
                apply Computes.bind h₄
                rw [hd₂.iNo]
                exact ih _ _ _ _ hd' he hn
              · split
                · exact ⟨d, s₂, rfl, hd₂.holding⟩
                · exact ih _ _ _ _ hd₂ hn hno
        · rename_i hlen
          intro r s' h
          simp only [Code.bind_ok, assert_ok, require_ok] at h
          obtain ⟨_, _, ⟨rfl, -⟩, _, _, ⟨-, hlen'⟩, -⟩ := h
          exact hlen hlen'

/-- What `search_file` returns, apart from the handle. -/
def walkFile (s : State) (pathname : Path) : Option Found :=
  if isRootPath pathname then some ⟨0, [], ftDirectory⟩
  else if s.ndebug = true ∨
      (pathname.head? = some slash ∧ 1 < pathname.length ∧ pathname.length < 512) then
    walk s (pathname.length + 1) (pathParse pathname).rest
      (storeName Bytes.zero (pathParse pathname).component) 0 none []
  else none

theorem searchFile_computes (ht : Tidy s) (hs : WellFormedTree s) (hmem : s.Served)
    (pathname : Path) : Computes s (searchFile pathname) s (walkFile s pathname) := by
  rw [searchFile, walkFile]
  split
  · exact ⟨rootDir, s, rfl, Or.inl ⟨rfl, refl_of Restored s⟩⟩
  · split
    · rename_i hpath
      have hassert : assert (pathname.head? = some slash ∧ 1 < pathname.length ∧
          pathname.length < 512) s = .ok ((), s) := assert_ok.mpr ⟨rfl, hpath⟩
      apply Computes.bind hassert
      exact searchLoop_computes ht hs hmem _ _ _ _ _ (.root hs) .root .root
    · rename_i hpath
      intro r s' h
      simp only [Code.bind_ok, assert_ok] at h
      obtain ⟨_, _, ⟨-, hpath'⟩, -⟩ := h
      exact hpath hpath'

theorem walkFile_of_searchFile (ht : Tidy s) (hs : WellFormedTree s) (hmem : s.Served)
    {pathname : Path} {r : Searched} (h : searchFile pathname s = .ok (r, s₁)) :
    walkFile s pathname = some ⟨r.inodeNo, r.searchedPath, r.fileType⟩ := by
  have hcomp := searchFile_computes ht hs hmem pathname
  cases hwalk : walkFile s pathname with
  | none =>
      rw [hwalk] at hcomp
      exact absurd h (hcomp r s₁)
  | some f =>
      rw [hwalk] at hcomp
      obtain ⟨d, s', h', -⟩ := hcomp
      rw [h] at h'
      cases h'
      rfl

private theorem walk_isDir (hs : WellFormedTree s) (k : Nat) :
    ∀ {n : UInt32} {subPath : Option Path}
    {name : Bytes} {dirE : Option DirEntry} {searched : Path} {f : Found}, s.IsDir n →
      (∀ e, dirE = some e → s.IsDir e.iNo) → walk s k subPath name n dirE searched = some f →
      f.fileType = ftDirectory → s.IsDir f.inodeNo := by
  induction k with
  | zero =>
      intro n subPath name dirE searched f _ _ h
      cases h
  | succ k ih =>
      intro n subPath name dirE searched f hn he h hdir
      rw [walk] at h
      split at h
      · obtain ⟨e, hdirE, rfl⟩ := Option.map_eq_some_iff.mp h
        exact he e hdirE
      · rename_i hname
        split at h
        · split at h
          · obtain rfl := Option.some.inj h
            have hunknown : ftUnknown = ftDirectory := hdir
            exact absurd hunknown (by decide)
          · rename_i e hfind
            have hentry : s.Entry n (cstr name 512) e := hasEntry_of_lookup hfind
            dsimp only at h
            split at h
            · rename_i htype
              have hchild : e.child = some e.iNo := by rw [DirEntry.child, if_pos htype]
              have hisDir : s.IsDir e.iNo := .entry hn (cstr_ne_nil hname) hentry hchild
              refine ih hisDir (fun e' he' => ?_) h hdir
              obtain rfl := Option.some.inj he'
              exact hisDir
            · split at h
              · obtain rfl := Option.some.inj h
                have hregular : ftRegular = ftDirectory := hdir
                exact absurd hregular (by decide)
              · rename_i htype htype'
                exact absurd (hs.typed hn (cstr_ne_nil hname) hentry).1 (not_or.mpr ⟨htype, htype'⟩)
        · cases h

theorem searchFile_isDir (ht : Tidy s) (hs : WellFormedTree s) (hmem : s.Served)
    {pathname : Path} {r : Searched} (h : searchFile pathname s = .ok (r, s₁))
    (hdir : r.fileType = ftDirectory) : s.IsDir r.inodeNo := by
  have hwalk := walkFile_of_searchFile ht hs hmem h
  rw [walkFile] at hwalk
  split at hwalk
  · have hzero : (0 : UInt32) = r.inodeNo := congrArg Found.inodeNo (Option.some.inj hwalk)
    rw [← hzero]
    exact .root
  · split at hwalk
    · exact walk_isDir hs _ .root (fun e he => by cases he) hwalk hdir
    · cases hwalk

end Loop

end Aitos.Fs
