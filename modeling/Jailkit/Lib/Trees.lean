import Jailkit.Lib.Locating
import Mathlib.Algebra.Order.BigOperators.Group.List
import Mathlib.Algebra.Order.Group.Nat

/-!
File systems without symlinks: there a path is followed name by name, and what is removed
elsewhere makes no difference to where it leads.
-/
namespace Jailkit

def Entry.isLink : Entry → Bool
  | .symlink _ => true
  | _ => false

namespace Fs

def NoLinks (fs : Fs) : Prop := ∀ loc target, fs.entry loc ≠ some (.symlink target)

variable {fs fs' : Fs}

theorem noLinks_of_nodes (h : ∀ y ∈ fs.nodes, y.2.isLink = false) : fs.NoLinks := by
  intro loc target he
  have hlink := h _ (symlink_mem_nodes he)
  cases hlink

/-- Behind a directory the walk starts again. -/
theorem walkWith_bind (h : fs.NoLinks) {follow follow' : Bool}
    {next next' : Loc → List Text → Option Loc} {ts : List Text} (hts : ts ≠ []) (cur : Loc)
    (cs : List Text) :
    fs.walkWith follow next cur (cs ++ ts) =
      (fs.walkWith follow' next' cur cs).bind fun d => fs.walkWith follow next d ts := by
  induction cs generalizing cur with
  | nil => rfl
  | cons c cs ih =>
      rw [List.cons_append, walkWith, walkWith]
      split
      · rfl
      · split
        · exact ih cur
        · split
          · exact ih _
          · have hne : cs ++ ts ≠ [] := by simp [hts]
            cases he : fs.entry (cur ++ [c]) with
            | none =>
                simp only [if_neg hne]
                split
                · cases ts with
                  | nil => exact absurd rfl hts
                  | cons t ts => simp [walkWith, he]
                · rfl
            | some e =>
                cases e with
                | symlink target => exact absurd he (h _ target)
                | dir | file ino => exact ih _

/-- Without symlinks there is nothing to follow. -/
theorem walkWith_noLinks (h : fs.NoLinks) {follow follow' : Bool}
    {next next' : Loc → List Text → Option Loc} (cur : Loc) (cs : List Text) :
    fs.walkWith follow next cur cs = fs.walkWith follow' next' cur cs := by
  induction cs generalizing cur with
  | nil => rfl
  | cons c cs ih =>
      rw [walkWith, walkWith, ih cur, ih cur.dropLast]
      cases he : fs.entry (cur ++ [c]) with
      | none => rfl
      | some e =>
          cases e with
          | symlink target => exact absurd he (h _ target)
          | dir | file ino => rw [ih (cur ++ [c])]

/-- What has been removed was no directory, so each path leads where it led. -/
theorem walkWith_shrinks (h : fs.NoLinks) (hs : Shrinks fs fs') {follow : Bool}
    {next : Loc → List Text → Option Loc} (cur : Loc) (cs : List Text) :
    fs'.walkWith follow next cur cs = fs.walkWith follow next cur cs := by
  have hdir : ∀ x, fs'.entry x = some .dir ↔ fs.entry x = some .dir := by
    intro x
    cases hs.2 x with
    | inl hsame => rw [hsame]
    | inr hgone => simp [hgone.1, hgone.2]
  induction cs generalizing cur with
  | nil => rfl
  | cons c cs ih =>
      rw [walkWith, walkWith, ih cur, ih cur.dropLast]
      simp only [ne_eq, hdir]
      cases hs.2 (cur ++ [c]) with
      | inl hsame =>
          rw [hsame]
          cases he : fs.entry (cur ++ [c]) with
          | none => rfl
          | some e =>
              cases e with
              | symlink target => exact absurd he (h _ target)
              | dir | file ino => rw [ih (cur ++ [c])]
      | inr hgone =>
          rw [hgone.1]
          cases he : fs.entry (cur ++ [c]) with
          | none => rfl
          | some e =>
              cases e with
              | symlink target => exact absurd he (h _ target)
              | dir => exact absurd he hgone.2
              | file ino =>
                  cases cs with
                  | nil => rfl
                  | cons c' cs => simp [walkWith, he]

theorem walk_noLinks (h : fs.NoLinks) (follow : Bool) (n : Nat) (cur : Loc) (cs : List Text) :
    fs.walk follow n cur cs = fs.walkWith true (fun _ _ => none) cur cs := by
  cases n with
  | zero => exact walkWith_noLinks h cur cs
  | succ n => exact walkWith_noLinks h cur cs

theorem locate_noLinks (h : fs.NoLinks) (follow : Bool) {path : Text} (hpath : path ≠ []) :
    fs.locate follow path = fs.walkWith true (fun _ _ => none)
      (if isAbsolute path then [] else fs.cwd) (components path) := by
  rw [locate, if_neg hpath, walk_noLinks h]

theorem locate_shrinks (h : fs.NoLinks) (hs : Shrinks fs fs') (follow : Bool) (path : Text) :
    fs'.locate follow path = fs.locate follow path := by
  have h' : fs'.NoLinks := by
    intro loc target he
    cases hs.2 loc with
    | inl hsame => exact h loc target (hsame ▸ he)
    | inr hgone => rw [hgone.1] at he; cases he
  by_cases hpath : path = []
  · rw [locate, locate, if_pos hpath, if_pos hpath]
  · rw [locate_noLinks h' follow hpath, locate_noLinks h follow hpath, hs.1,
      walkWith_shrinks h hs]

theorem noLinks_shrinks (h : fs.NoLinks) (hs : Shrinks fs fs') : fs'.NoLinks := by
  intro loc target he
  cases hs.2 loc with
  | inl hsame => exact h loc target (hsame ▸ he)
  | inr hgone =>
      rw [hgone.1] at he
      cases he

theorem locate_follow_noLinks (h : fs.NoLinks) (follow follow' : Bool) (path : Text) :
    fs.locate follow path = fs.locate follow' path := by
  by_cases hpath : path = []
  · rw [locate, locate, if_pos hpath, if_pos hpath]
  · rw [locate_noLinks h follow hpath, locate_noLinks h follow' hpath]

/-- A path as the part before a slash and the part behind it. -/
theorem locate_split (h : fs.NoLinks) (follow follow' : Bool) {path : Text} (hpath : path ≠ [])
    (t : Text) :
    fs.locate follow (path ++ '/' :: t) =
      (fs.locate follow' path).bind fun d =>
        fs.walkWith true (fun _ _ => none) d (components t) := by
  rw [locate_noLinks h follow (by simp), locate_noLinks h follow' hpath,
    isAbsolute_append hpath, components_append_slash,
    walkWith_bind h (show components t ≠ [] from List.splitOn_ne_nil '/' t)]

theorem walkWith_name {name : Text} (hname : ValidName name) (h : fs.NoLinks) (d : Loc) :
    fs.walkWith true (fun _ _ => none) d [name] =
      if fs.entry d = some .dir then some (d ++ [name]) else none := by
  obtain ⟨hempty, hdot, hup, _⟩ := hname
  have hc : ¬ (name = [] ∨ name = ['.']) := fun h => h.elim hempty hdot
  rw [walkWith, if_neg hc, if_neg hup]
  by_cases hd : fs.entry d = some .dir
  · rw [if_neg (fun hne => hne hd), if_pos hd]
    cases he : fs.entry (d ++ [name]) with
    | none => rfl
    | some e =>
        cases e with
        | symlink target => exact absurd he (h _ target)
        | dir | file ino => rfl
  · rw [if_pos hd, if_neg hd]

/-- A slash at the end asks for a directory, and nothing else. -/
theorem locate_slash_noLinks (h : fs.NoLinks) (follow follow' : Bool) {path : Text}
    (hpath : path ≠ []) (l : Loc) :
    fs.locate follow (path ++ ['/']) = some l ↔
      fs.locate follow' path = some l ∧ fs.entry l = some .dir := by
  rw [locate_split h follow follow' hpath, Option.bind_eq_some_iff]
  constructor
  · intro ⟨d, hd, hl⟩
    obtain ⟨heq, hdir⟩ := walkWith_slash.mp hl
    rw [← heq]
    exact ⟨hd, hdir⟩
  · intro ⟨hd, hdir⟩
    exact ⟨l, hd, walkWith_slash.mpr ⟨rfl, hdir⟩⟩

/-- A name behind a path with a slash at its end. -/
theorem locate_name_noLinks (h : fs.NoLinks) (follow follow' : Bool) {path name : Text}
    (hpath : path.getLast? = some '/') (hname : ValidName name) :
    fs.locate follow (path ++ name) = (fs.locate follow' path).map fun d => d ++ [name] := by
  obtain ⟨head, hhead⟩ : ∃ head, path = head ++ ['/'] :=
    ⟨path.dropLast, (List.dropLast_append_getLast? '/' hpath).symm⟩
  have htext : head ++ ['/'] ++ name = head ++ '/' :: name := by simp
  have habs := (isAbsolute_slash head name).symm
  rw [hhead, htext, locate_noLinks h follow (by simp), locate_noLinks h follow' (by simp), habs,
    components_append head hname.2.2.2, components_slash_end,
    walkWith_bind h (List.cons_ne_nil name []), walkWith_bind h (List.cons_ne_nil [] [])]
  cases fs.walkWith true (fun _ _ => none) (if isAbsolute (head ++ ['/']) then [] else fs.cwd)
    (components head) with
  | none => rfl
  | some d =>
      rw [Option.bind_some, Option.bind_some, walkWith_name hname h]
      cases he : fs.walkWith true (fun _ _ => none) d [[]] with
      | none =>
          rw [if_neg fun hdir => by rw [walkWith_slash.mpr ⟨rfl, hdir⟩] at he; cases he]
          rfl
      | some l =>
          obtain ⟨heq, hdir⟩ := walkWith_slash.mp he
          rw [if_pos hdir, heq]
          rfl

/-- Where the directory with a name is, for a path with a slash at its end. -/
theorem locate_subdir (h : fs.NoLinks) {path name : Text} (hpath : path.getLast? = some '/')
    (hname : ValidName name) (l : Loc) :
    fs.locate true (path ++ name ++ ['/']) = some l ↔
      ∃ d, fs.locate true path = some d ∧ l = d ++ [name] ∧ fs.entry l = some .dir := by
  have hne : path ++ name ≠ [] := by simp [hname.1]
  rw [locate_slash_noLinks h true true hne, locate_name_noLinks h true true hpath hname,
    Option.map_eq_some_iff]
  constructor
  · intro ⟨⟨d, hd, heq⟩, hentry⟩
    exact ⟨d, hd, heq.symm, hentry⟩
  · intro ⟨d, hd, heq, hentry⟩
    exact ⟨⟨d, hd, heq.symm⟩, hentry⟩

/-- The path of the names below a directory whose path has a slash at its end. -/
def pathOf (dir : Text) : List Text → Text
  | [] => dir
  | [name] => dir ++ name
  | name :: name' :: names => pathOf (dir ++ name ++ ['/']) (name' :: names)

theorem append_pathOf (t dir : Text) (names : List Text) :
    t ++ pathOf dir names = pathOf (t ++ dir) names := by
  induction names generalizing dir with
  | nil => rfl
  | cons name names ih =>
      cases names with
      | nil => exact (List.append_assoc t dir name).symm
      | cons m names =>
          rw [pathOf, pathOf, ih]
          simp

theorem pathOf_locate (h : fs.NoLinks) {dir : Text} {names : List Text} {l : Loc}
    (hdir : dir.getLast? = some '/') (hvalid : ∀ n ∈ names, ValidName n) (hne : names ≠ [])
    (hl : fs.locate false (pathOf dir names) = some l) :
    ∃ d, fs.locate true dir = some d ∧ l = d ++ names := by
  induction names generalizing dir with
  | nil => exact absurd rfl hne
  | cons name names ih =>
      have hname := hvalid name List.mem_cons_self
      cases names with
      | nil =>
          rw [pathOf, locate_name_noLinks h false true hdir hname, Option.map_eq_some_iff] at hl
          obtain ⟨d, hd, heq⟩ := hl
          exact ⟨d, hd, heq.symm⟩
      | cons m names =>
          have hbelow : ∀ n ∈ m :: names, ValidName n :=
            fun n hn => hvalid n (List.mem_cons_of_mem name hn)
          obtain ⟨d', hd', heq⟩ := ih (by simp) hbelow (List.cons_ne_nil m names) hl
          obtain ⟨d, hd, heq', _⟩ := (locate_subdir h hdir hname d').mp hd'
          refine ⟨d, hd, ?_⟩
          rw [heq, heq']
          simp

theorem locate_pathOf (h : fs.NoLinks) (hnested : fs.Nested) (follow : Bool) {dir : Text}
    {names : List Text} {d : Loc} (hdir : dir.getLast? = some '/')
    (hvalid : ∀ n ∈ names, ValidName n) (hne : names ≠ [])
    (hd : fs.locate true dir = some d) (hsome : (fs.entry (d ++ names)).isSome) :
    fs.locate follow (pathOf dir names) = some (d ++ names) := by
  induction names generalizing dir d with
  | nil => exact absurd rfl hne
  | cons name names ih =>
      have hname := hvalid name List.mem_cons_self
      cases names with
      | nil => rw [pathOf, locate_name_noLinks h follow true hdir hname, hd, Option.map_some]
      | cons m names =>
          rw [List.append_cons] at hsome ⊢
          have hentry := entry_above hnested (List.cons_ne_nil m names) hsome
          exact ih (by simp) (fun n hn => hvalid n (List.mem_cons_of_mem name hn))
            (List.cons_ne_nil m names) ((locate_subdir h hdir hname _).mpr ⟨d, hd, rfl, hentry⟩)
            hsome

/-- No location at which something stands is longer than this. -/
def DepthBound (fs : Fs) (B : Nat) : Prop := ∀ x, (fs.entry x).isSome → x.length ≤ B

theorem exists_depthBound (fs : Fs) : ∃ B, fs.DepthBound B := by
  refine ⟨(fs.nodes.map fun y => y.1.length).sum, fun x hx => ?_⟩
  by_cases hroot : x = []
  · simp [hroot]
  · rw [entry, if_neg hroot, lookup_isSome_iff] at hx
    obtain ⟨y, hy, heq⟩ := hx
    rw [← heq]
    exact List.single_le_sum (by simp) _ (List.mem_map_of_mem hy)

theorem depthBound_shrinks {B : Nat} (hB : fs.DepthBound B) (h : Shrinks fs fs') :
    fs'.DepthBound B := by
  intro x hx
  cases h.2 x with
  | inl hsame => exact hB x (hsame ▸ hx)
  | inr hgone => simp [hgone.1] at hx

theorem nested_shrinks (hnested : fs.Nested) (h : Shrinks fs fs') : fs'.Nested := by
  intro loc name hsome
  have hentry : (fs.entry (loc ++ [name])).isSome := by
    cases h.2 (loc ++ [name]) with
    | inl hsame => rwa [hsame] at hsome
    | inr hgone => simp [hgone.1] at hsome
  have hdir := hnested loc name hentry
  cases h.2 loc with
  | inl hsame => rw [hsame, hdir]
  | inr hgone => exact absurd hdir hgone.2

theorem dir_of_slash {path : Text} {l : Loc} (hpath : path.getLast? = some '/')
    (hl : fs.locate true path = some l) : fs.entry l = some .dir := by
  have htext : path = path.dropLast ++ ['/'] :=
    (List.dropLast_append_getLast? '/' hpath).symm
  rw [htext] at hl
  by_cases hne : path.dropLast = []
  · have hroot : fs.locate true ([] ++ ['/']) = some [] := rfl
    rw [hne, hroot] at hl
    cases hl
    exact entry_root fs
  · exact (locate_slash hne hl).2

/-- Some part of the path before a slash names a file. -/
def Blocked (fs : Fs) (path : Text) : Prop :=
  ∃ q r ino, path = q ++ '/' :: r ∧ fs.lookup true q = some (.file ino)

theorem lookup_shrinks (h : fs.NoLinks) (hs : Shrinks fs fs') (follow : Bool) (path : Text) :
    fs'.lookup follow path = fs.lookup follow path ∨
      fs'.lookup follow path = none ∧ fs.lookup follow path ≠ some .dir := by
  rw [lookup, lookup, locate_shrinks h hs]
  cases fs.locate follow path with
  | none => exact Or.inl rfl
  | some l => exact hs.2 l

end Fs
end Jailkit
