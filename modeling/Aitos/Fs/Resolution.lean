import Aitos.Fs.Search

/-!
# Path resolution

On the components of a path `search_file` is the search that stops at the first regular file.  So it
finds what the path resolves to unless the path goes on behind a regular file, or has no component
at all.
-/

namespace Aitos.Fs

open Framework

/-- What the search answers for the entry it stopped at. -/
def outcome (path : Path) : Option DirEntry → Found
  | none => ⟨minusOne, path, ftUnknown⟩
  | some e => ⟨e.iNo, path, e.fType⟩

/-- The answer of the search fits the tree: an inode number comes back exactly when the path resolves
to an entry with that number, with the entry's type, and otherwise -1; then `sys_unlink` removes
nothing. -/
structure SearchFits (s : State) (pathname : Path) (r : Searched) : Prop where
  found : ∀ i, i ≠ minusOne → (r.inodeNo = i ↔ ∃ e, s.ResolvesTo pathname e ∧ e.iNo = i)
  fileType : ∀ e, s.ResolvesTo pathname e → r.fileType = e.fType
  absent : (∀ e, ¬ s.ResolvesTo pathname e) → r.inodeNo = minusOne ∧
    ∃ s', sysUnlink pathname s = .ok (false, s') ∧ s'.disk = s.disk ∧
      s'.blockBitmap = s.blockBitmap ∧ s'.inodeBitmap = s.inodeBitmap

/-- The path goes on behind a regular file. -/
def State.PassesFile (s : State) (pathname : Path) : Prop :=
  ∃ pre rest e, components pathname = pre ++ rest ∧ rest ≠ [] ∧
    Resolves s.Entry DirEntry.child 0 pre e ∧ e.fType = ftRegular

section Follow

variable {s s₁ : State} {pathname : Path}

private theorem child_regular {e : DirEntry} (h : e.fType = ftRegular) : e.child = none := by
  rw [DirEntry.child, if_neg]
  rw [h]
  decide

theorem child_directory {e : DirEntry} (h : e.fType = ftDirectory) : e.child = some e.iNo := by
  rw [DirEntry.child, if_pos h]

/-- What `path_parse` leaves for the next turn of the loop. -/
theorem nextComponent {subPath : Option Path} {cs : List (List UInt8)}
    (h : subPath.elim [] components = cs) :
    (subPath.elim ⟨[], none⟩ pathParse).component = cs.headD [] ∧
      (cs ≠ [] → (subPath.elim ⟨[], none⟩ pathParse).rest.elim [] components = cs.tail) := by
  cases subPath with
  | none =>
      obtain rfl : [] = cs := h
      exact ⟨rfl, fun h => absurd rfl h⟩
  | some p =>
      have hp : components p = cs := h
      rw [components_pathParse] at hp
      split at hp
      · rename_i hnil
        subst hp
        exact ⟨hnil, fun h => absurd rfl h⟩
      · subst hp
        exact ⟨rfl, fun _ => rfl⟩

/-- One turn of the loop, on a tree in which entries are files or directories. -/
private theorem walk_turn (hs : WellFormedTree s) {n : UInt32} {k : Nat} {subPath : Option Path}
    {name : Bytes} {dirE : Option DirEntry} {searched path : Path} (hn : s.IsDir n)
    (hname : name 0 ≠ 0) (hpath : searched ++ slash :: cstr name 512 = path)
    (hlen : path.length < 512) :
    walk s (k + 1) subPath name n dirE searched =
      match s.find n (cstr name 512) with
      | none => some (outcome path none)
      | some e =>
          if e.fType = ftDirectory then
            walk s k (subPath.elim ⟨[], none⟩ pathParse).rest
              (storeName (name.fill 0 16 0) (subPath.elim ⟨[], none⟩ pathParse).component) e.iNo
              (some e) path
          else some (outcome path (some e)) := by
  rw [walk, if_neg hname, hpath, if_pos hlen]
  cases hfind : s.find n (cstr name 512) with
  | none => rfl
  | some e =>
      dsimp only
      split
      · rfl
      · rename_i hdir
        have hentry : s.Entry n (cstr name 512) e := hasEntry_of_lookup hfind
        have hreg := (hs.typed hn (cstr_ne_nil hname) hentry).1.resolve_left hdir
        rw [if_pos hreg, outcome, hreg]

private theorem walk_follow (hs : WellFormedTree s) (cs : List (List UInt8)) :
    ∀ {c : List UInt8} {n : UInt32} {k : Nat} {subPath : Option Path} {name : Bytes}
      {dirE : Option DirEntry} {searched : Path}, s.IsDir n → name 0 ≠ 0 → cstr name 512 = c →
      subPath.elim [] components = cs → (∀ c ∈ cs, c ≠ [] ∧ c.length ≤ 15 ∧ 0 ∉ c) →
      searched.length + pathLength (c :: cs) < 512 → cs.length + 1 < k →
      ∃ path, walk s k subPath name n dirE searched =
        some (outcome path (follow s.find DirEntry.child n (c :: cs))) := by
  induction cs with
  | nil =>
      intro c n k subPath name dirE searched hn hname hc hsub _ hlen hk
      obtain ⟨k, rfl⟩ : ∃ k', k = k' + 1 + 1 := ⟨k - 2, by simp at hk; omega⟩
      have hlen' : (searched ++ slash :: cstr name 512).length < 512 := by
        rw [hc]
        simp [pathLength] at hlen ⊢
        omega
      refine ⟨searched ++ slash :: cstr name 512, ?_⟩
      rw [walk_turn hs hn hname rfl hlen', hc, follow]
      cases hfind : s.find n c with
      | none => rfl
      | some e =>
          dsimp only
          split
          · rename_i hdir
            have hempty : storeName (name.fill 0 16 0)
                (subPath.elim ⟨[], none⟩ pathParse).component 0 = 0 := by
              rw [(nextComponent hsub).1]
              exact (storeName_head List.not_mem_nil rfl).mpr rfl
            rw [walk, if_pos hempty, outcome, hdir]
            rfl
          · rfl
  | cons c' cs ih =>
      intro c n k subPath name dirE searched hn hname hc hsub hcs hlen hk
      obtain ⟨k, rfl⟩ : ∃ k', k = k' + 1 := ⟨k - 1, by omega⟩
      have hlen' : (searched ++ slash :: cstr name 512).length < 512 := by
        rw [hc]
        simp [pathLength] at hlen ⊢
        omega
      have hfollow : follow s.find DirEntry.child n (c :: c' :: cs) = _ :=
        follow_cons (List.cons_ne_nil c' cs)
      rw [walk_turn hs hn hname rfl hlen', hc, hfollow]
      cases hfind : s.find n c with
      | none => exact ⟨_, rfl⟩
      | some e =>
          dsimp only [Option.bind_some]
          split
          · rename_i hdir
            have hcne : c ≠ [] := hc ▸ cstr_ne_nil hname
            have hentry : s.Entry n c e := hasEntry_of_lookup hfind
            have he : s.IsDir e.iNo := .entry hn hcne hentry (child_directory hdir)
            obtain ⟨hc'ne, hc'len, hc'zero⟩ := hcs c' List.mem_cons_self
            obtain ⟨hcomp, hrest⟩ := nextComponent hsub
            rw [hcomp, child_directory hdir]
            apply ih he
            · exact fun h => hc'ne ((storeName_head hc'zero rfl).mp h)
            · refine cstr_storeName hc'zero (by omega) ?_
              have hclear := Bytes.fill_add name 0 16 (v := 0) (Nat.lt_succ_of_le hc'len)
              rwa [Nat.zero_add] at hclear
            · exact hrest (List.cons_ne_nil _ _)
            · exact fun c hc => hcs c (List.mem_cons_of_mem _ hc)
            · simp [pathLength] at hlen ⊢
              omega
            · simpa using hk
          · rename_i hdir
            have hchild : e.child = none := by rw [DirEntry.child, if_neg hdir]
            rw [hchild]
            exact ⟨_, rfl⟩

/-- An absolute path of length 2 to 511 with components of at most 15 characters. -/
structure ProperPath (pathname : Path) : Prop where
  absolute : pathname.head? = some slash
  two : 2 ≤ pathname.length
  short : pathname.length < 512
  noNul : 0 ∉ pathname
  components : ∀ c ∈ components pathname, c.length ≤ 15

theorem ProperPath.component (hp : ProperPath pathname) {c : List UInt8}
    (hc : c ∈ Fs.components pathname) : c ≠ [] ∧ c.length ≤ 15 ∧ 0 ∉ c :=
  ⟨components_ne_nil hc, hp.components c hc, fun hz => hp.noNul (mem_of_mem_components hc hz)⟩

private theorem isRootPath_components (hp : ProperPath pathname) (h : isRootPath pathname = true) :
    Fs.components pathname = [dot] ∨ Fs.components pathname = [dotdot] := by
  simp only [isRootPath, Bool.or_eq_true, decide_eq_true_eq] at h
  rcases h with (rfl | rfl) | rfl
  · exact absurd hp.two (by decide)
  · exact Or.inl (by decide)
  · exact Or.inr (by decide)

private theorem WellFormedTree.find_entry (hs : WellFormedTree s) {name : List UInt8} {e : DirEntry}
    (hname : name ≠ []) (h : s.Entry 0 name e) : s.find 0 name = some e :=
  (hs.finds.find .root hname e).mpr h

theorem walkFile_follow (hs : WellFormedTree s) (hp : ProperPath pathname)
    (hne : Fs.components pathname ≠ []) :
    ∃ path, walkFile s pathname =
      some (outcome path (follow s.find DirEntry.child 0 (Fs.components pathname))) := by
  rw [walkFile]
  by_cases hroot : isRootPath pathname = true
  · rw [if_pos hroot]
    refine ⟨[], ?_⟩
    rcases isRootPath_components hp hroot with hc | hc
    · rw [hc, follow, hs.find_entry (by decide) hs.dot]
      rfl
    · rw [hc, follow, hs.find_entry (by decide) hs.dotdot]
      rfl
  · rw [if_neg hroot, if_pos (Or.inr ⟨hp.absolute, hp.two, hp.short⟩)]
    have hparse := components_pathParse pathname
    have hcomp : (pathParse pathname).component ≠ [] := fun hnil =>
      hne (by rw [hparse, if_pos hnil])
    rw [if_neg hcomp] at hparse
    have hall := fun c (hc : c ∈ Fs.components pathname) => hp.component hc
    have hlen := pathLength_components hp.absolute
    rw [hparse] at hall hlen ⊢
    obtain ⟨-, hclen, hczero⟩ := hall _ List.mem_cons_self
    have hshort := hp.short
    apply walk_follow hs
    · exact .root
    · exact fun h => hcomp ((storeName_head hczero rfl).mp h)
    · exact cstr_storeName hczero (by omega) rfl
    · rfl
    · exact fun c hc => hall c (List.mem_cons_of_mem _ hc)
    · simpa using hlen.trans_lt hshort
    · have := length_le_pathLength
        ((pathParse pathname).component :: (pathParse pathname).rest.elim [] Fs.components)
      rw [List.length_cons] at this
      omega

private theorem walkFile_empty (hp : ProperPath pathname) (hnil : Fs.components pathname = []) :
    walkFile s pathname = none := by
  have hroot : ¬ isRootPath pathname = true := by
    intro h
    rcases isRootPath_components hp h with hc | hc
    · rw [hnil] at hc
      cases hc
    · rw [hnil] at hc
      cases hc
  have hparse := components_pathParse pathname
  rw [hnil] at hparse
  have hcomp : (pathParse pathname).component = [] := by
    by_contra hne
    rw [if_neg hne] at hparse
    cases hparse
  rw [walkFile, if_neg hroot, if_pos (Or.inr ⟨hp.absolute, hp.two, hp.short⟩), hcomp]
  rfl

/-- The search finds what the path resolves to. -/
theorem follow_of_resolvesTo (hs : WellFormedTree s) {e : DirEntry} (h : s.ResolvesTo pathname e) :
    follow s.find DirEntry.child 0 (Fs.components pathname) = some e := by
  have hfollow := hs.finds.follow_of_resolves h [] (Or.inl rfl) .root
    fun c hc => components_ne_nil hc
  rwa [List.append_nil] at hfollow

private theorem resolves_typed (hs : WellFormedTree s) {n : UInt32} {cs : List (List UInt8)}
    {e : DirEntry} (h : Resolves s.Entry DirEntry.child n cs e) :
    s.IsDir n → (∀ c ∈ cs, c ≠ []) →
      (e.fType = ftDirectory ∨ e.fType = ftRegular) ∧ e.iNo.toNat < 4096 := by
  induction h with
  | @last n c e hentry =>
      intro hn hcs
      exact hs.typed hn (hcs c (by simp)) hentry
  | @step n m c cs d e hentry hchild _ ih =>
      intro hn hcs
      exact ih (.entry hn (hcs c (by simp)) hentry hchild)
        fun c hc => hcs c (List.mem_cons_of_mem _ hc)

private theorem sysUnlink_absent (ht : Tidy s) {r : Searched}
    (hr : searchFile pathname s = .ok (r, s₁)) (hno : r.inodeNo = minusOne) :
    ∃ s', sysUnlink pathname s = .ok (false, s') ∧ Restored s s' := by
  obtain ⟨s', h'⟩ := dirClose_returns r.parentDir s₁
  have hassert : assert (r.inodeNo ≠ 0) s₁ = .ok ((), s₁) :=
    assert_ok.mpr ⟨rfl, Or.inr (by rw [hno]; decide)⟩
  refine ⟨s', ?_, dirClose_restored ht (searchFile_holding ht hr) h'⟩
  rw [sysUnlink, Code.bind_of_ok hr, Code.bind_of_ok hassert, if_pos hno, Code.bind_of_ok h']
  rfl

end Follow

/-- `search_file` returns what the path resolves to exactly when the path has a component and does
not go on behind a regular file. -/
theorem search_fits_iff {s : State} {pathname : Path} (ht : Tidy s) (hs : WellFormedTree s)
    (hmem : s.Served) (hp : ProperPath pathname) :
    (∃ r s₁, searchFile pathname s = .ok (r, s₁) ∧ SearchFits s pathname r) ↔
      components pathname ≠ [] ∧ ¬ s.PassesFile pathname := by
  have hok : ∀ c ∈ components pathname, c ≠ [] := fun c hc => components_ne_nil hc
  constructor
  · rintro ⟨r, s₁, hr, hfits⟩
    have hwalk := walkFile_of_searchFile ht hs hmem hr
    have hne : components pathname ≠ [] := by
      intro hnil
      rw [walkFile_empty hp hnil] at hwalk
      cases hwalk
    refine ⟨hne, ?_⟩
    rintro ⟨pre, rest, e, hcs, hrest, hres, hreg⟩
    -- the search stops at the file, but the path resolves to nothing
    have hpre : ∀ c ∈ pre, c ≠ [] := fun c hc => hok c (by rw [hcs]; exact List.mem_append_left _ hc)
    have hchild := child_regular hreg
    have hfollow := hs.finds.follow_of_resolves hres rest (Or.inr hchild) .root hpre
    have hnone : ∀ e', ¬ s.ResolvesTo pathname e' := by
      intro e'
      rw [State.ResolvesTo, hcs]
      exact hs.finds.not_resolves_append hres hchild hrest .root hpre e'
    obtain ⟨path, hpath⟩ := walkFile_follow hs hp hne
    rw [hcs, hfollow, hwalk] at hpath
    have hno : r.inodeNo = e.iNo := congrArg Found.inodeNo (Option.some.inj hpath)
    have hlt := (resolves_typed hs hres .root hpre).2
    rw [← hno, (hfits.absent hnone).1] at hlt
    exact absurd hlt (by decide)
  · rintro ⟨hne, hpass⟩
    obtain ⟨path, hpath⟩ := walkFile_follow hs hp hne
    have hcomp := searchFile_computes ht hs hmem pathname
    rw [hpath] at hcomp
    obtain ⟨d, s₁, hr, -⟩ := hcomp
    refine ⟨_, s₁, hr, ?_⟩
    -- what the search stops at is what the path resolves to
    have hiff : ∀ e, follow s.find DirEntry.child 0 (components pathname) = some e ↔
        s.ResolvesTo pathname e := by
      intro e
      refine ⟨fun h => ?_, follow_of_resolvesTo hs⟩
      rcases hs.finds.resolves_of_follow _ .root hok h with hres | ⟨pre, rest, hcs, hrest, hres, hchild⟩
      · exact hres
      · have hpre : ∀ c ∈ pre, c ≠ [] := fun c hc =>
          hok c (by rw [hcs]; exact List.mem_append_left _ hc)
        have hreg : e.fType = ftRegular := by
          apply (resolves_typed hs hres .root hpre).1.resolve_left
          intro hdir
          rw [child_directory hdir] at hchild
          cases hchild
        exact absurd ⟨pre, rest, e, hcs, hrest, hres, hreg⟩ hpass
    cases hfollow : follow s.find DirEntry.child 0 (components pathname) with
    | none =>
        rw [hfollow] at hr hiff
        have hnone : ∀ e, ¬ s.ResolvesTo pathname e := fun e he => by
          cases (hiff e).mpr he
        refine ⟨fun i hi => ?_, fun e he => absurd he (hnone e), fun _ => ?_⟩
        · exact ⟨fun h => absurd h.symm hi, fun ⟨e, he, _⟩ => absurd he (hnone e)⟩
        · obtain ⟨s', h', hrest⟩ := sysUnlink_absent ht hr rfl
          exact ⟨rfl, s', h', hrest.disk, hrest.blockBitmap, hrest.inodeBitmap⟩
    | some e =>
        rw [hfollow] at hiff
        have he := (hiff e).mp rfl
        have hunique : ∀ e', s.ResolvesTo pathname e' → e' = e := fun e' he' =>
          (Option.some.inj ((hiff e').mpr he')).symm
        refine ⟨fun i _ => ⟨fun h => ⟨e, he, h⟩, ?_⟩, fun e' he' => ?_, fun h => absurd he (h e)⟩
        · rintro ⟨e', he', rfl⟩
          rw [hunique e' he']
          rfl
        · rw [hunique e' he']
          rfl

/-- On a new partition the search for `/x` finds nothing, as it should. -/
theorem search_fits_absent : ∃ s ∈ smallSystem, ∃ r s₁, searchFile (path "/x") s = .ok (r, s₁) ∧
    SearchFits s (path "/x") r := by
  have hplay : ∃ s ∈ smallSystem, Tidy s ∧ s.FlatRoot := by decide +kernel
  obtain ⟨s, hs, htidy, hflat⟩ := hplay
  have hp : ProperPath (path "/x") := ⟨rfl, by decide, by decide, by decide, by decide⟩
  have hcomp : components (path "/x") = [path "x"] := by decide
  refine ⟨s, hs, (search_fits_iff htidy hflat.wellFormedTree (smallSystem_mounted hs).served
    hp).mpr ⟨by rw [hcomp]; exact List.cons_ne_nil _ _, ?_⟩⟩
  rintro ⟨pre, rest, e, hcs, hrest, hres, -⟩
  rw [hcomp] at hcs
  have hlen := congrArg List.length hcs
  rw [List.length_append] at hlen
  have h₁ := List.length_pos_iff.mpr hrest
  have h₂ := List.length_pos_iff.mpr hres.ne_nil
  simp at hlen
  omega

/-- There is a file `/f`; `search_file` finds it for `/f/x`, and `sys_unlink` of `/f/x` removes
it. -/
theorem search_passes_file : ∃ s, (calls AnyMounted fun _ => True).Reachable s ∧ Tidy s ∧
    WellFormedTree s ∧ s.Served ∧ (∃ s', sysUnlink (path "/f/x") s = .ok (true, s')) ∧
    ¬ ∃ r s₁, searchFile (path "/f/x") s = .ok (r, s₁) ∧ SearchFits s (path "/f/x") r := by
  have hplay : ∃ s₀ ∈ smallSystem, ∃ s₁ ∈ s₀.playOne 0 (.sysOpen (path "/f") (oCreat ||| oRdwr)),
      ∃ s ∈ s₁.playOne 0 (.sysClose 3), Tidy s ∧ s.FlatRoot ∧
        s.find 0 (path "f") = some ⟨1, ftRegular⟩ ∧
        (∃ out ∈ (searchFile (path "/f/x") s).toOption, out.1.inodeNo = 1) ∧
        ∃ out ∈ (sysUnlink (path "/f/x") s).toOption, out.1 = true := by decide +kernel
  obtain ⟨s₀, h₀, s₁, h₁, s, h₂, htidy, hflat, hfind, ⟨⟨r, s'⟩, hout, hno⟩, ⟨ok, s''⟩, hunlink, hok⟩ :=
    hplay
  have hwf := hflat.wellFormedTree
  obtain ⟨r₁, hstep₁⟩ : ∃ r, (calls AnyMounted fun _ => True).step s₀ ⟨0, _, r⟩ s₁ :=
    playOne_step AnyMounted trivial h₁
  obtain ⟨r₂, hstep₂⟩ : ∃ r, (calls AnyMounted fun _ => True).step s₁ ⟨0, _, r⟩ s :=
    playOne_step AnyMounted trivial h₂
  have hserved : s.Served := by
    obtain ⟨_, hopen, -⟩ := Code.map_ok.mp hstep₁.2.2.2
    obtain ⟨_, hclose, -⟩ := Code.map_ok.mp hstep₂.2.2.2
    have hs₀ : (s₀.switchTo 0).Served := (smallSystem_mounted h₀).served
    have hs₁ : s₁.Served := hs₀.same (sameServe_sysOpen _ _ _ _ _ hopen)
    have hs₁' : (s₁.switchTo 0).Served := hs₁
    exact hs₁'.same (stableFiles_sameServe.sysClose _ _ _ _ hclose)
  have hreach : (calls AnyMounted fun _ => True).Reachable s :=
    .step (.step (.init ⟨_, _, smallSystem_mounted h₀⟩) hstep₁) hstep₂
  refine ⟨s, hreach, htidy, hwf, hserved, ⟨s'', ?_⟩, ?_⟩
  · rw [Code.ok_of_toOption hunlink]
    simpa using hok
  rintro ⟨r', s₃, hr, hfits⟩
  rw [Code.ok_of_toOption hout] at hr
  cases hr
  -- the entry `f` is a file, so nothing is behind it
  obtain ⟨e, hres, -⟩ := (hfits.found 1 (by decide)).mp hno
  have hcomp : components (path "/f/x") = [path "f", path "x"] := by decide
  rw [State.ResolvesTo, hcomp] at hres
  obtain ⟨d, m, hentry, hchild, -⟩ := hres.of_cons (List.cons_ne_nil _ _)
  obtain rfl := hwf.unique .root (by decide) (hasEntry_of_lookup hfind) hentry
  cases hchild

end Aitos.Fs
