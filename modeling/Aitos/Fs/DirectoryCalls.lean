import Aitos.Fs.Search

/-!
# The calls that take a directory

`sys_opendir`, `sys_chdir` and `sys_stat` each treat the root before they search.  `sys_chdir` and
`sys_stat` report what the search finds; `sys_opendir` takes every path that starts with `/.` for the
root.
-/

namespace Aitos.Fs

open Framework

/-- The three calls do what the search says about the path. -/
def CallsAgree (s : State) (pathname : Path) (r : Searched) : Prop :=
  if r.inodeNo ≠ minusOne ∧ r.fileType = ftDirectory then
    (∃ d s', sysOpendir pathname s = .ok (some d, s') ∧ (s'.dirInode d).iNo = r.inodeNo) ∧
    (∃ s', sysChdir pathname s = .ok (true, s') ∧ s'.cwdInodeNr s.cur = r.inodeNo) ∧
    ∃ st s', sysStat pathname s = .ok (some st, s') ∧ st.stIno = r.inodeNo ∧
      st.stFiletype = ftDirectory
  else
    (∃ s', sysOpendir pathname s = .ok (none, s')) ∧ ∃ s', sysChdir pathname s = .ok (false, s')

section Calls

variable {s s₁ s' : State} {pathname : Path} {r : Searched} {d : DirPtr} {n : UInt32}

private theorem Holding.findInode_none (ht : Tidy s) (h : Holding s s₁ d)
    (hnone : s₁.findInode n = none) : s.findInode n = none := by
  cases hfind : s.findInode n with
  | none => rfl
  | some p =>
      have hmem := List.mem_of_find?_eq_some hfind
      have hlt := (ht.listed p hmem).1
      have hno : (s.inode p).iNo = n := by simpa using List.find?_some hfind
      have hkept : p ∈ s₁.openInode ∧ (s₁.inode p).iNo = n := by
        rcases h with ⟨-, h⟩ | ⟨-, -, h⟩
        · rw [h.openInode, h.inode p hlt]
          exact ⟨hmem, hno⟩
        · rcases h.here with ⟨-, hopen, hq⟩ | ⟨hnew, hopen, -⟩
          · rw [hopen]
            refine ⟨hmem, ?_⟩
            by_cases hp : p = (s₁.dir d).inode
            · rw [← hp] at hq
              rw [hq]
              exact hno
            · rw [h.others p hlt hp]
              exact hno
          · rw [hopen, h.others p hlt (Nat.ne_of_lt (hlt.trans_le hnew))]
            exact ⟨List.mem_cons_of_mem _ hmem, hno⟩
      have hne := List.find?_eq_none.mp hnone p hkept.1
      simp [hkept.2] at hne

private theorem dirOpen_number (ht : Tidy s) (hs : WellFormedTree s) (hmem : s.Served)
    (h : Holding s s₁ d) (hn : s.IsDir n) :
    ∃ d' s', dirOpen n s₁ = .ok (d', s') ∧ (s'.dirInode d').iNo = n := by
  obtain ⟨hlt, hno⟩ := hs.number hn
  obtain ⟨d', s', h', hcases⟩ := dirOpen_returns (hmem.framed h.framed) hlt
  refine ⟨d', s', h', ?_⟩
  rcases hcases with ⟨p, hfind, hiNo, -⟩ | ⟨hfind, hload⟩
  · rw [hiNo]
    simpa using List.find?_some hfind
  · rw [State.inodeOf, h.findInode_none ht hfind] at hno
    rw [hload, State.load, h.framed.slot]
    exact hno

/-- Closing a handle changes counts and the list `open_inode` only. -/
structure ClosesOnly (s s' : State) : Prop where
  cwdInodeNr : s'.cwdInodeNr = s.cwdInodeNr
  dir : s'.dir = s.dir
  iNo : ∀ p, (s'.inode p).iNo = (s.inode p).iNo

instance : IsPreorder State ClosesOnly where
  refl _ := ⟨rfl, rfl, fun _ => rfl⟩
  trans _ _ _ h h' := ⟨h'.cwdInodeNr.trans h.cwdInodeNr, h'.dir.trans h.dir,
    fun p => (h'.iNo p).trans (h.iNo p)⟩

private theorem closesOnly_inodeClose (p : Ptr) : Keeps ClosesOnly (inodeClose p) := by
  refine Keeps.bind (Keeps.modify fun s => ⟨rfl, rfl, fun q => ?_⟩) fun _ =>
    Keeps.get.bind fun s => ?_
  · by_cases hq : q = p
    · rw [hq, State.setInode_inode, Function.update_self]
      rfl
    · rw [State.setInode_inode, Function.update_of_ne hq]
  · split
    · exact Keeps.bind (Keeps.modify fun s => ⟨rfl, rfl, fun _ => rfl⟩) fun _ =>
        Keeps.modify fun s => ⟨rfl, rfl, fun _ => rfl⟩
    · exact Keeps.pure

private theorem closesOnly_dirClose (d : DirPtr) : Keeps ClosesOnly (dirClose d) :=
  Keeps.ite Keeps.pure (Keeps.get.bind fun _ => (closesOnly_inodeClose _).bind fun _ =>
    Keeps.modify fun _ => ⟨rfl, rfl, fun _ => rfl⟩)

theorem ClosesOnly.number (h : ClosesOnly s s') (d : DirPtr) :
    (s'.dirInode d).iNo = (s.dirInode d).iNo := by
  rw [State.dirInode, State.dirInode, h.dir, h.iNo]

private theorem sysChdir_dir (hr : searchFile pathname s = .ok (r, s₁)) (hcur : s₁.cur = s.cur)
    (hdir : r.inodeNo ≠ minusOne ∧ r.fileType = ftDirectory) :
    ∃ s', sysChdir pathname s = .ok (true, s') ∧ s'.cwdInodeNr s.cur = r.inodeNo := by
  obtain ⟨s', h'⟩ := dirClose_returns r.parentDir
    { s₁ with cwdInodeNr := Function.update s₁.cwdInodeNr s₁.cur r.inodeNo }
  refine ⟨s', ?_, ?_⟩
  · rw [sysChdir, Code.bind_of_ok hr, if_pos hdir, Code.modify_bind, Code.bind_of_ok h']
    rfl
  · rw [(closesOnly_dirClose _ _ _ _ h').cwdInodeNr, ← hcur]
    exact Function.update_self _ _ _

private theorem sysChdir_other (hr : searchFile pathname s = .ok (r, s₁))
    (hdir : ¬ (r.inodeNo ≠ minusOne ∧ r.fileType = ftDirectory)) :
    ∃ s', sysChdir pathname s = .ok (false, s') := by
  obtain ⟨s', h'⟩ := dirClose_returns r.parentDir s₁
  refine ⟨s', ?_⟩
  rw [sysChdir, Code.bind_of_ok hr, if_neg hdir, Code.bind_of_ok h']
  rfl

private theorem sysStat_dir (hs : WellFormedTree s) (hmem : s₁.Served)
    (hr : searchFile pathname s = .ok (r, s₁)) (hno : r.inodeNo ≠ minusOne)
    (hdir : r.fileType = ftDirectory) (hisDir : s.IsDir r.inodeNo) :
    ∃ st s', sysStat pathname s = .ok (some st, s') ∧ st.stIno = r.inodeNo ∧
      st.stFiletype = ftDirectory := by
  rw [sysStat]
  by_cases hroot : isRootPath pathname = true
  · rw [searchFile, if_pos hroot] at hr
    obtain ⟨rfl, rfl⟩ := Code.pure_ok.mp hr
    exact ⟨_, _, by rw [if_pos hroot]; rfl, rfl, rfl⟩
  · obtain ⟨p, s₂, h₂, -⟩ := inodeOpen_returns hmem (hs.number hisDir).1
    obtain ⟨s', h'⟩ := inodeClose_returns p s₂
    refine ⟨⟨r.inodeNo, (s₂.inode p).iSize, r.fileType⟩, s', ?_, rfl, hdir⟩
    rw [if_neg hroot, Code.bind_of_ok hr, if_pos hno, Code.bind_of_ok h₂, Code.get_bind,
      Code.bind_of_ok h']
    rfl

/-- The paths that `sys_opendir` takes for the root. -/
def opensRoot (name : Path) : Prop :=
  name.head? = some slash ∧ (name.length = 1 ∨ name[1]? = some 46)

private theorem sysOpendir_root (hlen : pathname.length < 512) (hroot : opensRoot pathname) :
    sysOpendir pathname s = .ok (some rootDir, s) := by
  rw [opensRoot] at hroot
  have hassert : assert (pathname.length < 512) s = .ok ((), s) := assert_ok.mpr ⟨rfl, Or.inr hlen⟩
  rw [sysOpendir, Code.bind_of_ok hassert, if_pos hroot]
  rfl

private theorem sysOpendir_dir (ht : Tidy s) (hs : WellFormedTree s) (hmem : s.Served)
    (hlen : pathname.length < 512) (hroot : ¬ opensRoot pathname)
    (hr : searchFile pathname s = .ok (r, s₁))
    (hdir : r.inodeNo ≠ minusOne ∧ r.fileType = ftDirectory) (hisDir : s.IsDir r.inodeNo) :
    ∃ d s', sysOpendir pathname s = .ok (some d, s') ∧ (s'.dirInode d).iNo = r.inodeNo := by
  rw [opensRoot] at hroot
  have hassert : assert (pathname.length < 512) s = .ok ((), s) := assert_ok.mpr ⟨rfl, Or.inr hlen⟩
  obtain ⟨d, s₂, h₂, hno⟩ := dirOpen_number ht hs hmem (searchFile_holding ht hr) hisDir
  obtain ⟨s', h'⟩ := dirClose_returns r.parentDir s₂
  refine ⟨d, s', ?_, ?_⟩
  · rw [sysOpendir, Code.bind_of_ok hassert, if_neg hroot, Code.bind_of_ok hr, if_pos hdir,
      Code.bind_of_ok h₂, Code.bind_of_ok h']
    rfl
  · rw [(closesOnly_dirClose _ _ _ _ h').number]
    exact hno

private theorem sysOpendir_other (hlen : pathname.length < 512) (hroot : ¬ opensRoot pathname)
    (hr : searchFile pathname s = .ok (r, s₁))
    (hdir : ¬ (r.inodeNo ≠ minusOne ∧ r.fileType = ftDirectory)) :
    ∃ s', sysOpendir pathname s = .ok (none, s') := by
  rw [opensRoot] at hroot
  have hassert : assert (pathname.length < 512) s = .ok ((), s) := assert_ok.mpr ⟨rfl, Or.inr hlen⟩
  obtain ⟨s', h'⟩ := dirClose_returns r.parentDir s₁
  refine ⟨s', ?_⟩
  rw [sysOpendir, Code.bind_of_ok hassert, if_neg hroot, Code.bind_of_ok hr, if_neg hdir,
    Code.bind_of_ok h']
  rfl

private theorem opensRoot.search (hroot : opensRoot pathname)
    (hr : searchFile pathname s = .ok (r, s₁)) :
    pathname[1]? = some 46 ∨ r.fileType = ftDirectory ∧ r.inodeNo = 0 := by
  rcases hroot.2 with hone | hdot
  · obtain ⟨x, rfl⟩ := List.length_eq_one_iff.mp hone
    obtain rfl : x = slash := Option.some.inj hroot.1
    have hsearch : searchFile [slash] s = .ok (⟨0, [], rootDir, ftDirectory⟩, s) := rfl
    rw [hsearch] at hr
    cases hr
    exact Or.inr ⟨rfl, rfl⟩
  · exact Or.inl hdot

end Calls

/-- The calls agree on a path, except that `sys_opendir` answers for the root when the path starts
with `/.`. -/
theorem calls_agree_iff {s s₁ : State} {pathname : Path} {r : Searched} (ht : Tidy s)
    (hs : WellFormedTree s) (hmem : s.Served) (habs : pathname.head? = some slash)
    (hlen : pathname.length < 512) (hr : searchFile pathname s = .ok (r, s₁)) :
    CallsAgree s pathname r ↔
      (pathname[1]? = some 46 → r.fileType = ftDirectory ∧ r.inodeNo = 0) := by
  have hframed := (searchFile_holding ht hr).framed
  have hrootNo : (s.dirInode rootDir).iNo = 0 := (OnDir.root hs).iNo
  rw [CallsAgree]
  by_cases hroot : opensRoot pathname
  · have hopen := sysOpendir_root (s := s) hlen hroot
    have hzero : (pathname[1]? = some 46 → r.fileType = ftDirectory ∧ r.inodeNo = 0) →
        r.fileType = ftDirectory ∧ r.inodeNo = 0 := fun h => (hroot.search hr).elim h id
    by_cases hdir : r.inodeNo ≠ minusOne ∧ r.fileType = ftDirectory
    · rw [if_pos hdir]
      have hisDir := searchFile_isDir ht hs hmem hr hdir.2
      constructor
      · rintro ⟨⟨d, s', hd, hno⟩, -⟩ -
        rw [hopen] at hd
        cases hd
        exact ⟨hdir.2, hno.symm.trans hrootNo⟩
      · intro h
        refine ⟨⟨rootDir, s, hopen, ?_⟩, sysChdir_dir hr hframed.cur hdir,
          sysStat_dir hs (hmem.framed hframed) hr hdir.1 hdir.2 hisDir⟩
        rw [(hzero h).2]
        exact hrootNo
    · rw [if_neg hdir]
      constructor
      · rintro ⟨⟨s', hd⟩, -⟩ -
        rw [hopen] at hd
        cases hd
      · intro h
        obtain ⟨htype, hno⟩ := hzero h
        exact absurd ⟨by rw [hno]; decide, htype⟩ hdir
  · have hnot : pathname[1]? ≠ some 46 := fun hdot => hroot ⟨habs, Or.inr hdot⟩
    refine ⟨fun _ hdot => absurd hdot hnot, fun _ => ?_⟩
    by_cases hdir : r.inodeNo ≠ minusOne ∧ r.fileType = ftDirectory
    · rw [if_pos hdir]
      have hisDir := searchFile_isDir ht hs hmem hr hdir.2
      exact ⟨sysOpendir_dir ht hs hmem hlen hroot hr hdir hisDir, sysChdir_dir hr hframed.cur hdir,
        sysStat_dir hs (hmem.framed hframed) hr hdir.1 hdir.2 hisDir⟩
    · rw [if_neg hdir]
      exact ⟨sysOpendir_other hlen hroot hr hdir, sysChdir_other hr hdir⟩

/-- On a new partition the calls agree on `/..`. -/
theorem calls_agree_dotdot : ∃ s r s₁, s ∈ smallSystem ∧
    searchFile (path "/..") s = .ok (r, s₁) ∧ CallsAgree s (path "/..") r := by
  have hplay : ∃ s ∈ smallSystem, Tidy s ∧ s.FlatRoot := by decide +kernel
  obtain ⟨s, hs, htidy, hflat⟩ := hplay
  have hr : searchFile (path "/..") s = .ok (⟨0, [], rootDir, ftDirectory⟩, s) := rfl
  refine ⟨s, _, s, hs, hr, ?_⟩
  exact (calls_agree_iff htidy hflat.wellFormedTree (smallSystem_mounted hs).served rfl (by decide)
    hr).mpr fun _ => ⟨rfl, rfl⟩

/-- On a new partition `/.x` is not found, but `sys_opendir` opens the root for it. -/
theorem opendir_hidden_is_root : ∃ s r s₁, s ∈ smallSystem ∧ Tidy s ∧ WellFormedTree s ∧ s.Served ∧
    searchFile (path "/.x") s = .ok (r, s₁) ∧ r.inodeNo = minusOne ∧
    ¬ CallsAgree s (path "/.x") r := by
  have hplay : ∃ s ∈ smallSystem, Tidy s ∧ s.FlatRoot ∧
      ∃ out ∈ (searchFile (path "/.x") s).toOption, out.1.inodeNo = minusOne := by decide +kernel
  obtain ⟨s, hs, htidy, hflat, ⟨r, s₁⟩, hout, hno⟩ := hplay
  have hr := Code.ok_of_toOption hout
  refine ⟨s, r, s₁, hs, htidy, hflat.wellFormedTree, (smallSystem_mounted hs).served, hr, hno, ?_⟩
  intro hagree
  rw [CallsAgree, if_neg (fun h => h.1 hno)] at hagree
  obtain ⟨⟨s', hopen⟩, -⟩ := hagree
  have hroot : opensRoot (path "/.x") := ⟨rfl, Or.inr rfl⟩
  rw [sysOpendir_root (by decide) hroot] at hopen
  cases hopen

end Aitos.Fs
