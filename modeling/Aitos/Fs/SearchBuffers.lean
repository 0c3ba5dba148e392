import Aitos.Fs.Handle
import Aitos.Fs.PathParse
import Aitos.Fs.SearchedPath

/-!
# The buffers of a search

`search_file` as it runs on memory: the path is a string somewhere, and the component buffer `name`
and the `searched_path` of the caller have 512 bytes each.  No name that is found is longer than
fifteen bytes, so the clearing of sixteen bytes wipes it out, and what is appended to `searched_path`
was taken from the path, a slash for a slash.
-/

namespace Aitos.Fs

open Framework

/-- What stops a search: the file system below it, or a store behind the end of a buffer. -/
inductive SearchStop where
  | fs (h : Halt)
  | searchedPath
  | name

abbrev SearchM := Code State SearchStop

section Code

/-- A call that uses neither buffer -/
def calling {α : Type} (m : FsM α) : SearchM α := fun s => (m s).mapError .fs

/-- A call of `path_parse`, which stores to `name` -/
def parsing (r : Except Halt (Option Nat × Bytes)) : SearchM (Option Nat × Bytes) :=
  match r with
  | .ok out => return out
  | .error .outOfBounds => throw .name
  | .error h => throw (.fs h)

/-- `strcat` to `searched_path` -/
def strcat (buf : Bytes) (src : List UInt8) : SearchM Bytes :=
  let len := (cstr buf 512).length
  if len + src.length < 512 then return buf.blit len (src.length + 1) fun i => src.getD i 0
  else throw .searchedPath

/-- The result of `search_file` with its `struct path_search_record`, and the names that
`search_dir_entry` was called with. -/
structure SearchedAt where
  inodeNo : UInt32
  searchedPath : Bytes
  parentDir : DirPtr
  fileType : UInt32
  lookedUp : List (List UInt8)

variable (text : Bytes) (n : Nat)

/-- The loop of `search_file` -/
def searchLoopAt : Nat → Option Nat → Bytes → DirPtr → UInt32 → Option DirEntry → Bytes →
    List (List UInt8) → SearchM SearchedAt
  | 0, _, _, _, _, _, _, _ => throw (.fs .diverge)
  | k + 1, subPath, name, parentDir, parentInodeNo, dirE, searched, lookedUp =>
      if name 0 = 0 then do
        calling (dirClose parentDir)
        let d ← calling (dirOpen parentInodeNo)
        match dirE with
        | none => throw (.fs .uninitialised)
        | some e => return ⟨e.iNo, searched, d, ftDirectory, lookedUp⟩
      else do
        calling (assert ((cstr searched 512).length < 512))
        let searched ← strcat searched [slash]
        let searched ← strcat searched (cstr name 512)
        let lookedUp := lookedUp ++ [cstr name 512]
        match ← calling (searchDirEntry parentDir (cstr name 512)) with
        | none => return ⟨minusOne, searched, parentDir, ftUnknown, lookedUp⟩
        | some e =>
            let (subPath, name) ← parsing (nextRound text 512 n subPath name)
            if e.fType = ftDirectory then
              let parentNo := ((← get).dirInode parentDir).iNo
              calling (dirClose parentDir)
              let d ← calling (dirOpen e.iNo)
              searchLoopAt k subPath name d parentNo (some e) searched lookedUp
            else if e.fType = ftRegular then
              return ⟨e.iNo, searched, parentDir, ftRegular, lookedUp⟩
            else searchLoopAt k subPath name parentDir parentInodeNo (some e) searched lookedUp

/-- `search_file` on the path at `pathname`, of at most `n` bytes with its NUL -/
def searchFileAt (pathname : Nat) (searched : Bytes) : SearchM SearchedAt :=
  let p := cstr (text.drop pathname) n
  if isRootPath p then return ⟨0, Function.update searched 0 0, rootDir, ftDirectory, []⟩
  else do
    calling (assert (p.head? = some slash ∧ 1 < p.length ∧ p.length < 512))
    let (subPath, name) ← parsing (pathParseAt text 512 n pathname Bytes.zero)
    searchLoopAt text n (p.length + 1) subPath name rootDir 0 none searched []

end Code

section Buffers

variable {buf : Bytes} {l src : List UInt8} {s : State}

private theorem cstr_stringAt {a n : Nat} (h : StringAt buf a l) (hn : l.length < n) :
    cstr (buf.drop a) n = l :=
  cstr_eq (fun hzero => h.ne_zero 0 hzero rfl) hn (fun _ hi => h.getD hi) h.terminated

private theorem cstr_start (h : StringAt buf 0 l) (hn : l.length < 512) : cstr buf 512 = l := by
  have hdrop : buf.drop 0 = buf := funext fun i => congrArg buf (Nat.zero_add i)
  have hread := cstr_stringAt h hn
  rwa [hdrop] at hread

private theorem strcat_ok (h : StringAt buf 0 l) (hsrc : 0 ∉ src)
    (hfits : l.length + src.length < 512) :
    ∃ buf', strcat buf src s = .ok (buf', s) ∧ StringAt buf' 0 (l ++ src) := by
  refine ⟨buf.blit l.length (src.length + 1) fun i => src.getD i 0, ?_, ?_⟩
  · rw [strcat, cstr_start h (by omega), if_pos hfits]
    rfl
  · refine StringAt.of_getD (fun i hi => ?_) ?_ ?_
    · rw [List.length_append] at hi
      rw [Nat.zero_add]
      by_cases hlow : i < l.length
      · rw [Bytes.blit_of_outside _ _ _ _ (by omega), List.getD_append _ _ _ _ hlow]
        have hchar := h.getD hlow
        rwa [Nat.zero_add] at hchar
      · rw [Bytes.blit_of_lt _ _ _ _ (by omega) (by omega), List.getD_append_right _ _ _ _ (by omega)]
    · rw [Nat.zero_add, List.length_append, Bytes.blit_of_lt _ _ _ _ (by omega) (by omega)]
      exact List.getD_eq_default _ _ (by omega)
    · rw [List.mem_append]
      rintro (hl | hs)
      · exact h.ne_zero 0 hl rfl
      · exact hsrc hs

private theorem strcat_component {done : List (List UInt8)} {c : List UInt8}
    (h : StringAt buf 0 (joined done)) (hc : 0 ∉ c) (hfits : (joined (done ++ [c])).length < 512) :
    ∃ buf₁ buf₂, strcat buf [slash] s = .ok (buf₁, s) ∧ strcat buf₁ c s = .ok (buf₂, s) ∧
      StringAt buf₂ 0 (joined (done ++ [c])) := by
  have hjoin : joined (done ++ [c]) = (joined done ++ [slash]) ++ c := by
    rw [joined_append, joined_singleton, List.append_assoc, List.singleton_append]
  rw [hjoin, List.length_append] at hfits
  have hslash : 0 ∉ [slash] := by decide
  obtain ⟨buf₁, hcat₁, hbuf₁⟩ := strcat_ok (s := s) h hslash (by
    rw [← List.length_append]
    omega)
  obtain ⟨buf₂, hcat₂, hbuf₂⟩ := strcat_ok (s := s) hbuf₁ hc hfits
  rw [hjoin]
  exact ⟨buf₁, buf₂, hcat₁, hcat₂, hbuf₂⟩

private theorem length_joined_le {seen all : List (List UInt8)} (h : seen <+: all) :
    (joined seen).length ≤ pathLength all := by
  obtain ⟨rest, rfl⟩ := h
  rw [← length_joined, joined_append, List.length_append]
  omega

end Buffers

/-- A tree on which `search_file` finds its way: `root_dir` is open on inode 0, the inodes of the
directories have their numbers, and no name is longer than fifteen bytes. -/
structure ShortNames (s : State) : Prop where
  rootDir : s.findInode 0 = some (s.dir rootDir).inode
  number : ∀ {n}, s.IsDir n → n.toNat < 4096 ∧ (s.inodeOf n).iNo = n
  short : ∀ {n name e}, s.IsDir n → s.Entry n name e → name.length ≤ 15

/-- What a run of the search on buffers is to the one on lists: both stop in the file system, or both
return the same, the names that were looked up stand in `searched_path`, and they are the first of
the components `all`. -/
inductive Follows (all : List (List UInt8)) :
    Except SearchStop (SearchedAt × State) → Except Halt (Searched × State) → Prop where
  | stop (h : Halt) : Follows all (.error (.fs h)) (.error h)
  | result {seen : List (List UInt8)} {buf : Bytes} {no : UInt32} {d : DirPtr} {fileType : UInt32}
      {s : State} : seen <+: all → StringAt buf 0 (joined seen) →
      Follows all (.ok (⟨no, buf, d, fileType, seen⟩, s)) (.ok (⟨no, joined seen, d, fileType⟩, s))

section Loop

variable {s s₁ s' : State} {all : List (List UInt8)}

theorem Follows.bind {α : Type} {m : FsM α} {f : α → SearchM SearchedAt} {g : α → FsM Searched}
    (h : ∀ a s', m s = .ok (a, s') → Follows all (f a s') (g a s')) :
    Follows all ((calling m >>= f) s) ((m >>= g) s) := by
  change Follows all ((m s).mapError .fs >>= fun out => f out.1 out.2)
    (m s >>= fun out => g out.1 out.2)
  cases hm : m s with
  | error stop => exact .stop stop
  | ok out => exact h out.1 out.2 hm

theorem Follows.returns {run : Except SearchStop (SearchedAt × State)} {out : Searched × State}
    (h : Follows all run (.ok out)) : ∃ r s₁, run = .ok (r, s₁) := by
  cases h with
  | result hseen hbuf => exact ⟨_, _, rfl⟩

private theorem length_rest_le (rest : Option Path) :
    (rest.elim ⟨[], none⟩ pathParse).rest.elim 0 List.length ≤ rest.elim 0 List.length := by
  cases rest with
  | none => exact le_rfl
  | some q =>
      have hle := pathParse_length q
      rw [Option.elim_some, Option.elim_some]
      omega

private theorem searchLoopAt_follows {text : Bytes} {n : Nat} (ht : Tidy s) (hs : ShortNames s)
    (hlen : pathLength all < 512) (k : Nat) :
    ∀ {done todo : List (List UInt8)} {p : Option Nat} {rest : Option Path} {name buf : Bytes}
      {d : DirPtr} {m no : UInt32} {dirE : Option DirEntry} {s₁ : State}, done ++ todo = all →
      Upcoming name rest todo → Option.Rel (StringAt text) p rest → rest.elim 0 List.length < n →
      StringAt buf 0 (joined done) → OnHandle s s₁ d m → s.IsDir m →
      Follows all (searchLoopAt text n k p name d no dirE buf done s₁)
        (searchLoop k rest name d no dirE (joined done) s₁) := by
  induction k with
  | zero =>
      intro done todo p rest name buf d m no dirE s₁ _ _ _ _ _ _ _
      exact .stop .diverge
  | succ k ih =>
      intro done todo p rest name buf d m no dirE s₁ hall hup hrel hn hbuf hd hm
      rw [searchLoopAt, searchLoop]
      by_cases hname : name 0 = 0
      · rw [if_pos hname, if_pos hname]
        apply Follows.bind
        intro _ s₂ _
        apply Follows.bind
        intro d' s₃ _
        cases dirE with
        | none => exact .stop .uninitialised
        | some e => exact .result (hall ▸ List.prefix_append _ _) hbuf
      · rw [if_neg hname, if_neg hname]
        obtain ⟨c, todo, rfl⟩ := List.exists_cons_of_ne_nil fun hnil => hname (hup.done_iff.mpr hnil)
        have hread : cstr name 512 = c := hup.chars
        obtain ⟨-, hcz, -⟩ := hup.sound c List.mem_cons_self
        have hprefix : done ++ [c] <+: all := by
          refine ⟨todo, ?_⟩
          rw [← hall, List.append_assoc, List.singleton_append]
        have hfits : (joined (done ++ [c])).length < 512 := (length_joined_le hprefix).trans_lt hlen
        obtain ⟨buf₁, buf₂, hcat₁, hcat₂, hbuf₂⟩ := strcat_component (s := s₁) hbuf hcz hfits
        have hjoin : joined done ++ slash :: c = joined (done ++ [c]) := by
          rw [joined_append, joined_singleton]
        have hdone : (joined done).length < 512 := by
          rw [← hjoin, List.length_append] at hfits
          omega
        have hassert : calling (assert ((cstr buf 512).length < 512)) s₁ = .ok ((), s₁) := by
          rw [calling, assert_ok.mpr ⟨rfl, .inr ?_⟩]
          · rfl
          · rwa [cstr_start hbuf hdone]
        have hassert' : assert ((joined done).length < 512) s₁ = .ok ((), s₁) :=
          assert_ok.mpr ⟨rfl, .inr hdone⟩
        have hrequire : require ((joined (done ++ [c])).length < 512) .outOfBounds s₁ =
            .ok ((), s₁) := require_ok.mpr ⟨rfl, hfits⟩
        rw [Code.bind_of_ok hassert, Code.bind_of_ok hassert', hread, hjoin, Code.bind_of_ok hcat₁,
          Code.bind_of_ok hcat₂, Code.bind_of_ok hrequire]
        apply Follows.bind
        intro found s₂ hsearch
        have hd₂ := hd.restored ht hs.rootDir (restored_searchDirEntry _ _ _ _ _ hsearch)
        cases found with
        | none => exact .result hprefix hbuf₂
        | some e =>
            -- the name was found, so it is short enough to be wiped out
            have hentry : s.Entry m c e := hd.entry hsearch
            have hshort : c.length ≤ 15 := hs.short hm hentry
            have hleft : rest.elim [] components = todo := hup.left (List.cons_ne_nil _ _)
            have hnext := hup.next (hshort.trans (by decide))
            have hless := (length_rest_le rest).trans_lt hn
            have hcomp := (nextComponent hleft).1
            have hhead : (todo.headD []).length ≤ 512 := by
              cases todo with
              | nil => exact Nat.zero_le _
              | cons c' todo => exact (hup.sound c' (by simp)).2.2.le
            obtain ⟨p', hround, hrel'⟩ := nextRound_ok name hrel hleft hhead hn
            have hall' : (done ++ [c]) ++ todo = all := by
              rw [← hall, List.append_assoc, List.singleton_append]
            have hparse : parsing (nextRound text 512 n p name) s₂ =
                .ok ((p', storeName (name.fill 0 16 0) (todo.headD [])), s₂) := by
              rw [hround]
              rfl
            rw [hcomp] at hnext
            dsimp only
            rw [Code.bind_of_ok hparse, hcomp]
            dsimp only
            by_cases hdir : e.fType = ftDirectory
            · rw [if_pos hdir, if_pos hdir, Code.get_bind, Code.get_bind]
              have hchild : s.IsDir e.iNo :=
                .entry hm (hup.sound c List.mem_cons_self).1 hentry (child_directory hdir)
              apply Follows.bind
              intro _ s₃ hclose
              apply Follows.bind
              intro d' s₄ hopen
              have hback := dirClose_restored ht hd₂.holding hclose
              obtain ⟨hlt, hnum⟩ := hs.number hchild
              exact ih hall' hnext hrel' hless hbuf₂ (dirOpen_onHandle ht hback hlt hnum hopen).1
                hchild
            · rw [if_neg hdir, if_neg hdir]
              by_cases hregular : e.fType = ftRegular
              · rw [if_pos hregular, if_pos hregular]
                exact .result hprefix hbuf₂
              · rw [if_neg hregular, if_neg hregular]
                exact ih hall' hnext hrel' hless hbuf₂ hd₂ hm

end Loop

section Search

variable {text searched : Bytes} {a n : Nat} {s s₁ : State} {p : Path}

/-- `/.` and `/..` are the only paths with a component that are not searched. -/
private theorem isRootPath_eq_false (hne : components p ≠ []) (hdot : p ≠ slash :: dot)
    (hdotdot : p ≠ slash :: dotdot) : isRootPath p = false := by
  have hslash : p ≠ [slash] := by
    rintro rfl
    exact hne (by decide)
  rw [isRootPath, decide_eq_false hslash, decide_eq_false hdot, decide_eq_false hdotdot]
  rfl

private theorem one_lt_length (hhead : p.head? = some slash) (hne : components p ≠ []) :
    1 < p.length := by
  cases p with
  | nil => cases hhead
  | cons x p =>
      obtain rfl : x = slash := Option.some.inj hhead
      cases p with
      | nil => exact absurd rfl hne
      | cons y p => exact Nat.succ_lt_succ (Nat.zero_lt_succ _)

/-- On a tree with short names the search on buffers follows the one on lists. -/
private theorem searchFileAt_follows (ht : Tidy s) (hs : ShortNames s) (hp : StringAt text a p)
    (hhead : p.head? = some slash) (hlen : p.length < 512) (hne : components p ≠ [])
    (hdot : p ≠ slash :: dot) (hdotdot : p ≠ slash :: dotdot) (hempty : searched 0 = 0)
    (hn : p.length < n) :
    Follows (components p) (searchFileAt text n a searched s) (searchFile p s) := by
  have hroot := isRootPath_eq_false hne hdot hdotdot
  have hlong := one_lt_length hhead hne
  have hassert : assert (p.head? = some slash ∧ 1 < p.length ∧ p.length < 512) s = .ok ((), s) :=
    assert_ok.mpr ⟨rfl, .inr ⟨hhead, hlong, hlen⟩⟩
  have hcall : calling (assert (p.head? = some slash ∧ 1 < p.length ∧ p.length < 512)) s =
      .ok ((), s) := by
    rw [calling, hassert]
    rfl
  have hup : Upcoming (storeName Bytes.zero (pathParse p).component) (pathParse p).rest
      (components p) := Upcoming.first (fun hzero => hp.ne_zero 0 hzero rfl) hlen
  have hfits : ((components p).headD []).length ≤ 512 := by
    obtain ⟨c, cs, hcs⟩ := List.exists_cons_of_ne_nil hne
    rw [hcs, List.headD_cons]
    exact (hup.sound c (by rw [hcs]; exact List.mem_cons_self)).2.2.le
  obtain ⟨q, hparse, hrel⟩ := pathParseAt_round Bytes.zero hp hfits hn
  have hcomp : (pathParse p).component = (components p).headD [] :=
    (nextComponent (show (some p).elim [] components = components p from rfl)).1
  have hparsing : parsing (pathParseAt text 512 n a Bytes.zero) s =
      .ok ((q, storeName Bytes.zero ((components p).headD [])), s) := by
    rw [hparse]
    rfl
  have hstart := (pathLength_components hhead).trans_lt hlen
  have hless := (length_rest_le (some p)).trans_lt hn
  rw [searchFileAt, searchFile, cstr_stringAt hp hn, if_neg (by simp [hroot]),
    if_neg (by simp [hroot]), Code.bind_of_ok hcall, Code.bind_of_ok hassert,
    Code.bind_of_ok hparsing, hcomp]
  rw [hcomp] at hup
  exact searchLoopAt_follows ht hs hstart _ (List.nil_append _) hup hrel hless hempty
    (.root hs.rootDir) .root

/-- The search of an absolute path shorter than `MAX_PATH_LEN` on a tree whose names have at most
fifteen bytes never stores behind the end of `searched_path` or of its component buffer, and when it
returns, `searched_path` is made of the components it looked up, each behind a single slash. -/
theorem searchFile_buffers (ht : Tidy s) (hs : ShortNames s) (hp : StringAt text a p)
    (hhead : p.head? = some slash) (hlen : p.length < 512) (hne : components p ≠ [])
    (hdot : p ≠ slash :: dot) (hdotdot : p ≠ slash :: dotdot) (hempty : searched 0 = 0)
    (hn : p.length < n) :
    searchFileAt text n a searched s ≠ .error .searchedPath ∧
      searchFileAt text n a searched s ≠ .error .name ∧
      ∀ r s₁, searchFileAt text n a searched s = .ok (r, s₁) →
        r.lookedUp <+: components p ∧ StringAt r.searchedPath 0 (joined r.lookedUp) ∧
          searchFile p s = .ok (⟨r.inodeNo, joined r.lookedUp, r.parentDir, r.fileType⟩, s₁) := by
  have hfollows := searchFileAt_follows ht hs hp hhead hlen hne hdot hdotdot hempty hn
  generalize searchFileAt text n a searched s = run at hfollows
  generalize searchFile p s = run' at hfollows ⊢
  cases hfollows with
  | stop h => exact ⟨by simp, by simp, by simp⟩
  | result hseen hbuf =>
      refine ⟨by simp, by simp, fun r s₁ h => ?_⟩
      cases h
      exact ⟨hseen, hbuf, rfl⟩

private theorem walk_some (hs : ShortNames s) (k : Nat) : ∀ {done todo : List (List UInt8)}
    {rest : Option Path} {name : Bytes} {m : UInt32} {dirE : Option DirEntry},
    Upcoming name rest todo → s.IsDir m → pathLength (done ++ todo) < 512 →
    (todo = [] → dirE ≠ none) → todo.length < k →
    ∃ f, walk s k rest name m dirE (joined done) = some f := by
  induction k with
  | zero =>
      intro done todo rest name m dirE _ _ _ _ hk
      exact absurd hk (Nat.not_lt_zero _)
  | succ k ih =>
      intro done todo rest name m dirE hup hm hlen hdirE hk
      rw [walk]
      by_cases hname : name 0 = 0
      · obtain ⟨e, rfl⟩ := Option.ne_none_iff_exists'.mp (hdirE (hup.done_iff.mp hname))
        rw [if_pos hname]
        exact ⟨_, rfl⟩
      · obtain ⟨c, todo, rfl⟩ := List.exists_cons_of_ne_nil fun hnil => hname (hup.done_iff.mpr hnil)
        have hread : cstr name 512 = c := hup.chars
        have hsplit : (done ++ [c]) ++ todo = done ++ c :: todo := by
          rw [List.append_assoc, List.singleton_append]
        have hjoin : joined done ++ slash :: c = joined (done ++ [c]) := by
          rw [joined_append, joined_singleton]
        have hfits : (joined (done ++ [c])).length < 512 :=
          (length_joined_le ⟨todo, hsplit⟩).trans_lt hlen
        rw [if_neg hname, hread, hjoin, if_pos hfits]
        cases hfind : s.find m c with
        | none => exact ⟨_, rfl⟩
        | some e =>
            have hentry : s.Entry m c e := hasEntry_of_lookup hfind
            have hnext := hup.next ((hs.short hm hentry).trans (by decide))
            have hrest : ∀ {m'}, s.IsDir m' → ∃ f, walk s k
                (rest.elim ⟨[], none⟩ pathParse).rest (storeName (name.fill 0 16 0)
                  (rest.elim ⟨[], none⟩ pathParse).component) m' (some e) (joined (done ++ [c])) =
                some f := by
              intro m' hm'
              exact ih hnext hm' (by rwa [hsplit]) (fun _ => Option.some_ne_none e)
                (Nat.lt_of_succ_lt_succ hk)
            dsimp only
            by_cases hdir : e.fType = ftDirectory
            · rw [if_pos hdir]
              exact hrest (.entry hm (hup.sound c List.mem_cons_self).1 hentry
                (child_directory hdir))
            · rw [if_neg hdir]
              by_cases hregular : e.fType = ftRegular
              · rw [if_pos hregular]
                exact ⟨_, rfl⟩
              · rw [if_neg hregular]
                exact hrest hm

private theorem searchFileAt_returns (ht : Tidy s) (htree : WellFormedTree s) (hs : ShortNames s)
    (hmem : s.Served) (hp : StringAt text a p) (hhead : p.head? = some slash)
    (hlen : p.length < 512) (hne : components p ≠ []) (hdot : p ≠ slash :: dot)
    (hdotdot : p ≠ slash :: dotdot) (hempty : searched 0 = 0) (hn : p.length < n) :
    ∃ r s₁, searchFileAt text n a searched s = .ok (r, s₁) := by
  have hroot := isRootPath_eq_false hne hdot hdotdot
  have hstart := (pathLength_components hhead).trans_lt hlen
  have hcount := length_components_le p
  have hturns : ∃ f, walk s (p.length + 1) (pathParse p).rest
      (storeName Bytes.zero (pathParse p).component) 0 none (joined []) = some f :=
    walk_some hs (p.length + 1) (Upcoming.first (fun hzero => hp.ne_zero 0 hzero rfl) hlen) .root
      hstart (fun hnil => absurd hnil hne) (by omega)
  obtain ⟨f, hf⟩ := hturns
  have hwalk : walkFile s p = some f := by
    rw [walkFile, if_neg (by simp [hroot]), if_pos (.inr ⟨hhead, one_lt_length hhead hne, hlen⟩)]
    exact hf
  have hcomputes := searchFile_computes ht htree hmem p
  rw [hwalk] at hcomputes
  obtain ⟨d, s₁, hrun, -⟩ := hcomputes
  have hfollows := searchFileAt_follows ht hs hp hhead hlen hne hdot hdotdot hempty hn
  rw [hrun] at hfollows
  exact hfollows.returns

private theorem DirectoryTree.shortNames (hs : DirectoryTree s) : ShortNames s where
  rootDir := hs.rootDir
  number := hs.number
  short hn hentry := by
    obtain ⟨x, hx, hname, -⟩ := entry_iff_slot.mp hentry
    rw [← hname]
    exact (hs.names hn hx).1

/-- `//d//x` where there is a directory `d` without an `x` -/
theorem searchFile_buffers_nested : ∃ r s₁,
    searchFileAt (fun i => (path "//d//x").getD i 0) 7 0 Bytes.zero nestedState = .ok (r, s₁) ∧
      r.lookedUp <+: [path "d", path "x"] ∧ StringAt r.searchedPath 0 (path "/d/x") := by
  have hstr : StringAt (fun i => (path "//d//x").getD i 0) 0 (path "//d//x") :=
    .of_getD (fun _ _ => by rw [Nat.zero_add]) rfl (by decide)
  have hs := nested_treeOn.directoryTree
  have htidy : Tidy nestedState := by decide +kernel
  have hfound : (walkFile nestedState (path "//d//x")).map Found.searchedPath =
      some (path "/d/x") := by decide +kernel
  obtain ⟨r, s₁, hrun⟩ := searchFileAt_returns htidy hs.toWellFormedTree hs.shortNames
    (fun _ => rfl) hstr rfl (by decide) (by decide) (by decide) (by decide)
    (rfl : Bytes.zero 0 = 0) (n := 7) (by decide)
  obtain ⟨-, -, hret⟩ := searchFile_buffers htidy hs.shortNames hstr rfl (by decide) (by decide)
    (by decide) (by decide) (rfl : Bytes.zero 0 = 0) (n := 7) (by decide)
  obtain ⟨hseen, hbuf, hsearch⟩ := hret r s₁ hrun
  have hwalk := walkFile_of_searchFile htidy hs.toWellFormedTree (fun _ => rfl) hsearch
  rw [hwalk] at hfound
  have hjoined : joined r.lookedUp = path "/d/x" := Option.some.inj hfound
  rw [hjoined] at hbuf
  exact ⟨r, s₁, hrun, hseen, hbuf⟩

end Search

end Aitos.Fs
