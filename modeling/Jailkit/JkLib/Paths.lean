import Jailkit.Lib.Locating
import Mathlib.Data.List.DropRight

/-!
The path strings of jk_lib.py, and the functions of `os.path` that they are made with.

A normalised absolute path stands for a list of names, and each function is an operation
on these lists.
-/
namespace Jailkit.JkLib

open Fs (ValidName components isAbsolute)

def osPathJoin (a b : Text) : Text :=
  if b.head? = some '/' then b
  else if a = [] ∨ a.getLast? = some '/' then a ++ b
  else a ++ '/' :: b

def basename (path : Text) : Text := path.rtakeWhile (· ≠ '/')

def dirname (path : Text) : Text :=
  let head := path.rdropWhile (· ≠ '/')
  if head.all (· = '/') then head else head.rdropWhile (· = '/')

def normStep (absolute : Bool) (comps : List Text) (comp : Text) : List Text :=
  if comp = [] ∨ comp = ['.'] then comps
  else if comp ≠ ['.', '.'] ∨ absolute = false ∧ comps = [] ∨ comps.getLast? = some ['.', '.'] then
    comps ++ [comp]
  else comps.dropLast

/-- Two slashes at the beginning stay, three do not. -/
def initialSlashes (path : Text) : Text :=
  if path.head? = some '/' then
    if path.take 2 = ['/', '/'] ∧ path.take 3 ≠ ['/', '/', '/'] then ['/', '/'] else ['/']
  else []

def joinSlash (comps : List Text) : Text := List.intercalate ['/'] comps

def normpath (path : Text) : Text :=
  if path = [] then ['.']
  else
    let comps := (components path).foldl (normStep (isAbsolute path)) []
    let text := initialSlashes path ++ joinSlash comps
    if text = [] then ['.'] else text

def fixDoubleSlashesLoop : Bool → Text → Text
  | _, [] => []
  | slash, i :: instring =>
      if slash = true ∧ i = '/' then fixDoubleSlashesLoop true instring
      else i :: fixDoubleSlashesLoop (i == '/') instring

def fixDoubleSlashes (instring : Text) : Text := fixDoubleSlashesLoop false instring

/-- The loop of `split_path`. A path that is not absolute gets to the empty string and the
loop does not end; as long as it goes on, the path gets shorter in each round. -/
def splitLoop : Nat → Text → List Text → Option (List Text)
  | 0, _, _ => none
  | n + 1, next, ret =>
      if next = ['/'] then some ret else splitLoop n (dirname next) (basename next :: ret)

def splitPath (path : Text) : Option (List Text) :=
  let next := fixDoubleSlashes (normpath path)
  splitLoop (next.length + 1) next []

def joinPath (spath : List Text) : Text :=
  if spath = [] then ['/'] else spath.flatMap fun entry => '/' :: entry

/-- The names that a normalised path consists of. -/
def names (path : Text) : List Text := (components path).foldl (normStep true) []

theorem components_slash (a b : Text) :
    components (a ++ '/' :: b) = components a ++ components b :=
  List.splitOn_append_cons_self a b

theorem components_name {name : Text} (h : '/' ∉ name) : components name = [name] :=
  List.splitOn_eq_singleton h

theorem not_mem_components {path c : Text} (h : c ∈ components path) : '/' ∉ c := by
  induction path generalizing c with
  | nil =>
      rw [components, List.splitOn_nil, List.mem_singleton] at h
      simp [h]
  | cons x path ih =>
      rw [components, List.splitOn_cons_eq_if_modifyHead] at h
      split at h
      next =>
        cases List.mem_cons.mp h with
        | inl heq => simp [heq]
        | inr hmem => exact ih hmem
      next hx =>
        cases hsplit : List.splitOn '/' path with
        | nil => exact absurd hsplit (List.splitOn_ne_nil '/' path)
        | cons d ds =>
            rw [hsplit, List.modifyHead_cons] at h
            cases List.mem_cons.mp h with
            | inl heq =>
                have hd : '/' ∉ d := ih (by simp [components, hsplit])
                rw [heq]
                intro hmem
                cases List.mem_cons.mp hmem with
                | inl hslash => simp [← hslash] at hx
                | inr hmem => exact hd hmem
            | inr hmem => exact ih (by simp [components, hsplit, hmem])

/-- What is kept is a component that is neither empty nor `.`. -/
theorem mem_normStep {absolute : Bool} {comps : List Text} {comp n : Text}
    (h : n ∈ normStep absolute comps comp) :
    n ∈ comps ∨ n = comp ∧ comp ≠ [] ∧ comp ≠ ['.'] := by
  rw [normStep] at h
  split at h
  · exact Or.inl h
  next hplain =>
    rw [not_or] at hplain
    split at h
    next =>
      cases List.mem_append.mp h with
      | inl hmem => exact Or.inl hmem
      | inr hmem => exact Or.inr ⟨List.mem_singleton.mp hmem, hplain⟩
    next => exact Or.inl (List.dropLast_subset _ h)

theorem mem_foldl_normStep {absolute : Bool} (cs comps : List Text) {n : Text}
    (h : n ∈ cs.foldl (normStep absolute) comps) :
    n ∈ comps ∨ n ∈ cs ∧ n ≠ [] ∧ n ≠ ['.'] := by
  induction cs generalizing comps with
  | nil => exact Or.inl h
  | cons c cs ih =>
      cases ih (normStep absolute comps c) h with
      | inl hmem =>
          cases mem_normStep hmem with
          | inl hold => exact Or.inl hold
          | inr hnew =>
              obtain ⟨heq, hne⟩ := hnew
              rw [heq]
              exact Or.inr ⟨List.mem_cons_self, hne⟩
      | inr hmem => exact Or.inr ⟨List.mem_cons_of_mem c hmem.1, hmem.2⟩

/-- Below the root a `..` is never kept. -/
theorem no_parent_foldl (cs comps : List Text) (h : ['.', '.'] ∉ comps) :
    ['.', '.'] ∉ cs.foldl (normStep true) comps := by
  induction cs generalizing comps with
  | nil => exact h
  | cons c cs ih =>
      apply ih
      intro hmem
      rw [normStep] at hmem
      split at hmem
      · exact h hmem
      split at hmem
      next hup =>
        cases List.mem_append.mp hmem with
        | inl hold => exact h hold
        | inr hnew =>
            cases hup with
            | inl hne => exact hne (List.mem_singleton.mp hnew).symm
            | inr hrest =>
                cases hrest with
                | inl hrel => cases hrel.1
                | inr hlast => exact h (List.mem_of_getLast? hlast)
      next => exact h (List.dropLast_subset _ hmem)

theorem names_valid (path : Text) : ∀ n ∈ names path, ValidName n := by
  intro n hn
  cases mem_foldl_normStep _ _ hn with
  | inl hmem => cases hmem
  | inr hmem =>
      refine ⟨hmem.2.1, hmem.2.2, ?_, not_mem_components hmem.1⟩
      intro h
      rw [h] at hn
      exact no_parent_foldl _ [] (by simp) hn

theorem normStep_name (comps : List Text) {name : Text} (h : ValidName name) :
    normStep true comps name = comps ++ [name] := by
  have hplain : ¬ (name = [] ∨ name = ['.']) := fun h' => h'.elim h.1 h.2.1
  rw [normStep, if_neg hplain, if_pos (Or.inl h.2.2.1)]

theorem foldl_normStep_names (ns : List Text) (h : ∀ n ∈ ns, ValidName n) (comps : List Text) :
    ns.foldl (normStep true) comps = comps ++ ns := by
  induction ns generalizing comps with
  | nil => simp
  | cons n ns ih =>
      rw [List.foldl_cons, normStep_name comps (h n List.mem_cons_self),
        ih fun m hm => h m (List.mem_cons_of_mem n hm), List.append_assoc]
      rfl

theorem names_slash (a b : Text) :
    names (a ++ '/' :: b) = (components b).foldl (normStep true) (names a) := by
  rw [names, components_slash, List.foldl_append, names]

theorem eq_snoc_slash {a : Text} (h : a.getLast? = some '/') : ∃ b, a = b ++ ['/'] := by
  obtain ⟨b, hb⟩ := List.getLast?_eq_some_iff.mp h
  exact ⟨b, hb⟩

/-- A joined name adds itself to the names, an empty one nothing. -/
theorem names_osPathJoin {a b : Text} (ha : a ≠ []) (hb : '/' ∉ b) :
    names (osPathJoin a b) = normStep true (names a) b := by
  have hhead : b.head? ≠ some '/' := fun h => hb (List.mem_of_head? h)
  rw [osPathJoin, if_neg hhead]
  split
  next hlast =>
    obtain ⟨a', ha'⟩ := eq_snoc_slash (hlast.resolve_left ha)
    have hcomp : components b = [b] := components_name hb
    rw [ha', List.append_assoc, List.singleton_append, names_slash, hcomp, names_slash]
    rfl
  next => rw [names_slash, components_name hb]; rfl

theorem dirPath_osPathJoin (a : Text) {b : Text} (hb : ValidName b) :
    Fs.dirPath (osPathJoin a b) = osPathJoin a b := by
  apply Fs.dirPath_of_last
  rw [osPathJoin]
  split
  · exact Fs.getLast?_name [] hb
  · split
    · exact Fs.getLast?_name a hb
    · exact Fs.getLast?_child a hb

/-- The names with a slash before each: `join_path` but for the root. -/
def slashed (ns : List Text) : Text := ns.flatMap fun n => '/' :: n

theorem slashed_snoc (ns : List Text) (n : Text) : slashed (ns ++ [n]) = slashed ns ++ '/' :: n := by
  simp [slashed]

theorem components_slashed (ns : List Text) (h : ∀ n ∈ ns, '/' ∉ n) :
    components (slashed ns) = [] :: ns := by
  induction ns using List.reverseRecOn with
  | nil => exact List.splitOn_nil '/'
  | append_singleton ns n ih =>
      rw [slashed_snoc, components_slash, ih fun m hm => h m (List.mem_append_left [n] hm),
        components_name (h n (by simp))]
      rfl

theorem names_slashed {ns : List Text} (h : ∀ n ∈ ns, ValidName n) : names (slashed ns) = ns := by
  rw [names, components_slashed ns fun n hn => (h n hn).2.2.2]
  exact (foldl_normStep_names ns h []).trans (List.nil_append ns)

theorem slash_joinSlash {ns : List Text} (h : ns ≠ []) : '/' :: joinSlash ns = slashed ns := by
  induction ns with
  | nil => exact absurd rfl h
  | cons n ns ih =>
      cases ns with
      | nil => simp [joinSlash, slashed]
      | cons m ns =>
          have hrest := ih (by simp)
          simp only [joinSlash, List.intercalate_cons_cons, slashed, List.flatMap_cons] at hrest ⊢
          simp [hrest]

/-- What `normpath` makes of an absolute path: the names, behind one slash or two. -/
theorem normpath_absolute {path : Text} (h : isAbsolute path = true) :
    normpath path = '/' :: joinSlash (names path) ∨
      normpath path = '/' :: '/' :: joinSlash (names path) := by
  have hhead : path.head? = some '/' := of_decide_eq_true h
  have hne : path ≠ [] := by
    intro h'
    rw [h'] at hhead
    cases hhead
  rw [normpath, if_neg hne, h]
  simp only [initialSlashes, hhead, if_true]
  split
  · exact Or.inr rfl
  · exact Or.inl rfl

theorem names_root_joinSlash {ns : List Text} (h : ∀ n ∈ ns, ValidName n) :
    names ('/' :: joinSlash ns) = ns := by
  by_cases hns : ns = []
  · rw [hns]
    rfl
  · rw [slash_joinSlash hns, names_slashed h]

theorem names_cons_slash (b : Text) : names ('/' :: b) = names b := by
  have h := names_slash [] b
  rwa [List.nil_append] at h

theorem names_normpath {path : Text} (h : isAbsolute path = true) :
    names (normpath path) = names path := by
  have hns := names_root_joinSlash (names_valid path)
  cases normpath_absolute h with
  | inl heq => rw [heq, hns]
  | inr heq => rw [heq, names_cons_slash, hns]

theorem normpath_ne_nil (path : Text) : normpath path ≠ [] := by
  rw [normpath]
  split
  · simp
  · dsimp only
    split
    · simp
    next h => exact h

theorem fixDoubleSlashesLoop_word (slash : Bool) {t rest : Text} (ht : '/' ∉ t) (hne : t ≠ []) :
    fixDoubleSlashesLoop slash (t ++ rest) = t ++ fixDoubleSlashesLoop false rest := by
  induction t generalizing slash with
  | nil => exact absurd rfl hne
  | cons c t ih =>
      have hc : c ≠ '/' := fun h => ht (h ▸ List.mem_cons_self)
      have hc' : (c == '/') = false := beq_false_of_ne hc
      rw [List.cons_append, fixDoubleSlashesLoop, if_neg fun h => hc h.2, hc']
      by_cases htn : t = []
      · rw [htn]
        rfl
      · rw [ih false (fun h => ht (List.mem_cons_of_mem c h)) htn, List.cons_append]

theorem fixDoubleSlashesLoop_slashed {ns : List Text} (h : ∀ n ∈ ns, ValidName n) :
    fixDoubleSlashesLoop false (slashed ns) = slashed ns := by
  induction ns with
  | nil => rfl
  | cons n ns ih =>
      have hn := h n List.mem_cons_self
      have hrest := ih fun m hm => h m (List.mem_cons_of_mem n hm)
      have hword : fixDoubleSlashesLoop true (n ++ slashed ns) = n ++ slashed ns := by
        rw [fixDoubleSlashesLoop_word true hn.2.2.2 hn.1, hrest]
      exact congrArg ('/' :: ·) hword

theorem fixDoubleSlashes_normpath {path : Text} (h : isAbsolute path = true) :
    fixDoubleSlashes (normpath path) = joinPath (names path) := by
  have hvalid := names_valid path
  rw [joinPath]
  by_cases hns : names path = []
  · rw [if_pos hns]
    cases normpath_absolute h with
    | inl heq => rw [heq, hns]; rfl
    | inr heq => rw [heq, hns]; rfl
  · rw [if_neg hns]
    have hfix := fixDoubleSlashesLoop_slashed hvalid
    cases normpath_absolute h with
    | inl heq => rw [heq, slash_joinSlash hns, fixDoubleSlashes, hfix]; rfl
    | inr heq =>
        have hsecond : ∀ t, fixDoubleSlashesLoop false ('/' :: '/' :: t) =
            fixDoubleSlashesLoop false ('/' :: t) := by
          intro t
          simp [fixDoubleSlashesLoop]
        rw [heq, fixDoubleSlashes, hsecond, slash_joinSlash hns, hfix]
        rfl

theorem last_slashed {ns : List Text} (h : ∀ n ∈ ns, ValidName n) (hne : ns ≠ []) :
    ∃ t c, slashed ns = t ++ [c] ∧ c ≠ '/' := by
  obtain ⟨ms, n, hsnoc⟩ := List.eq_nil_or_concat ns |>.resolve_left hne
  have hn := h n (by simp [hsnoc])
  obtain ⟨t, c, hc⟩ := List.eq_nil_or_concat n |>.resolve_left hn.1
  refine ⟨slashed ms ++ '/' :: t, c, ?_, ?_⟩
  · rw [hsnoc, List.concat_eq_append, slashed_snoc, hc]
    simp
  · intro heq
    exact hn.2.2.2 (by simp [hc, heq])

theorem basename_slash (t : Text) {n : Text} (h : '/' ∉ n) : basename (t ++ '/' :: n) = n := by
  induction n using List.reverseRecOn with
  | nil => exact List.rtakeWhile_concat_neg _ _ _ (by simp)
  | append_singleton n c ih =>
      have hc : c ≠ '/' := fun heq => h (by simp [heq])
      have hn : '/' ∉ n := fun hm => h (by simp [hm])
      rw [basename, ← List.cons_append, ← List.append_assoc,
        List.rtakeWhile_concat_pos _ _ _ (by simp [hc]), ← basename, ih hn]

theorem rdropWhile_slash (t : Text) {n : Text} (h : '/' ∉ n) :
    (t ++ '/' :: n).rdropWhile (· ≠ '/') = t ++ ['/'] := by
  induction n using List.reverseRecOn with
  | nil => exact List.rdropWhile_concat_neg _ _ _ (by simp)
  | append_singleton n c ih =>
      have hc : c ≠ '/' := fun heq => h (by simp [heq])
      have hn : '/' ∉ n := fun hm => h (by simp [hm])
      rw [← List.cons_append, ← List.append_assoc,
        List.rdropWhile_concat_pos _ _ _ (by simp [hc]), ih hn]

theorem dirname_slashed {ns : List Text} (h : ∀ n ∈ ns, ValidName n) {n : Text} (hn : '/' ∉ n) :
    dirname (slashed ns ++ '/' :: n) = joinPath ns := by
  rw [dirname, rdropWhile_slash _ hn, joinPath]
  by_cases hns : ns = []
  · rw [hns]
    rfl
  · obtain ⟨t, c, hlast, hc⟩ := last_slashed h hns
    have hall : ¬ ((slashed ns ++ ['/']).all fun x => x = '/') = true := by
      simp [hlast, hc]
    rw [if_neg hall, if_neg hns, List.rdropWhile_concat_pos _ _ _ (by simp), hlast,
      List.rdropWhile_concat_neg _ _ _ (by simp [hc]), ← hlast]
    rfl

theorem joinPath_ne_root {ns : List Text} (h : ∀ n ∈ ns, ValidName n) (hne : ns ≠ []) :
    joinPath ns ≠ ['/'] := by
  obtain ⟨t, c, hlast, hc⟩ := last_slashed h hne
  rw [joinPath, if_neg hne]
  intro heq
  rw [show (ns.flatMap fun entry => '/' :: entry) = slashed ns from rfl, hlast] at heq
  have hgot := congrArg List.getLast? heq
  rw [List.getLast?_concat] at hgot
  exact hc (Option.some.inj hgot)

theorem joinPath_last (ns : List Text) {n : Text} (hn : ValidName n) :
    (joinPath (ns ++ [n])).getLast? ≠ some '/' := by
  have htext : joinPath (ns ++ [n]) = slashed ns ++ '/' :: n := by
    rw [joinPath, if_neg (by simp)]
    exact slashed_snoc ns n
  rw [htext]
  exact Fs.getLast?_child (slashed ns) hn

theorem splitLoop_joinPath {ns : List Text} (h : ∀ n ∈ ns, ValidName n) (fuel : Nat)
    (hfuel : ns.length < fuel) (ret : List Text) :
    splitLoop fuel (joinPath ns) ret = some (ns ++ ret) := by
  induction ns using List.reverseRecOn generalizing fuel ret with
  | nil =>
      cases fuel with
      | zero => cases hfuel
      | succ fuel =>
          have hroot : joinPath [] = ['/'] := rfl
          rw [splitLoop, if_pos hroot]
          rfl
  | append_singleton ns n ih =>
      cases fuel with
      | zero => cases hfuel
      | succ fuel =>
          have hns : ∀ m ∈ ns, ValidName m := fun m hm => h m (List.mem_append_left [n] hm)
          have hn : '/' ∉ n := (h n (by simp)).2.2.2
          have htext : joinPath (ns ++ [n]) = slashed ns ++ '/' :: n := by
            rw [joinPath, if_neg (by simp)]
            exact slashed_snoc ns n
          rw [splitLoop, if_neg (joinPath_ne_root h (by simp)), htext, dirname_slashed hns hn,
            basename_slash _ hn, ih hns fuel (by simp at hfuel; omega), List.append_assoc]
          rfl

theorem length_le_joinPath (ns : List Text) : ns.length ≤ (joinPath ns).length := by
  rw [joinPath]
  split
  next hns => simp [hns]
  next =>
    induction ns with
    | nil => simp
    | cons n ns ih =>
        by_cases hns : ns = []
        · simp [hns]
        · have hrest := ih hns
          simp only [List.flatMap_cons, List.length_append, List.length_cons]
          omega

theorem splitPath_absolute {path : Text} (h : isAbsolute path = true) :
    splitPath path = some (names path) := by
  have hlen := length_le_joinPath (names path)
  rw [splitPath, fixDoubleSlashes_normpath h,
    splitLoop_joinPath (names_valid path) _ (by omega), List.append_nil]

theorem dirname_prefix (path : Text) : dirname path <+: path := by
  rw [dirname]
  split
  · exact List.rdropWhile_prefix _ _
  · exact (List.rdropWhile_prefix _ _).trans (List.rdropWhile_prefix _ _)

theorem dirname_head {path : Text} (h : (dirname path).head? = some '/') :
    path.head? = some '/' := by
  obtain ⟨rest, hrest⟩ := dirname_prefix path
  rw [← hrest, List.head?_append, h]
  rfl

/-- The loop never gets to the root from a path that does not begin there. -/
theorem splitLoop_relative (fuel : Nat) {next : Text} (h : next.head? ≠ some '/')
    (ret : List Text) : splitLoop fuel next ret = none := by
  induction fuel generalizing next ret with
  | zero => rfl
  | succ fuel ih =>
      have hroot : next ≠ ['/'] := fun heq => h (by rw [heq]; rfl)
      rw [splitLoop, if_neg hroot]
      apply ih
      exact fun hhead => h (dirname_head hhead)

theorem fixDoubleSlashes_head (t : Text) : (fixDoubleSlashes t).head? = t.head? := by
  cases t with
  | nil => rfl
  | cons c t => simp [fixDoubleSlashes, fixDoubleSlashesLoop]

theorem normpath_relative {path : Text} (h : isAbsolute path = false) :
    (normpath path).head? ≠ some '/' := by
  have hhead : path.head? ≠ some '/' := of_decide_eq_false h
  rw [normpath]
  split
  · simp
  · rw [h]
    simp only [initialSlashes, if_neg hhead, List.nil_append]
    split
    · simp
    next hne =>
      cases hcomps : (components path).foldl (normStep false) [] with
      | nil => simp [hcomps, joinSlash] at hne
      | cons c cs =>
          have hmem : c ∈ (components path).foldl (normStep false) [] := by simp [hcomps]
          have hc := (mem_foldl_normStep _ [] hmem).resolve_left (by simp)
          have hslash := not_mem_components hc.1
          obtain ⟨x, c', hx⟩ := List.exists_cons_of_ne_nil hc.2.1
          rw [hx] at hslash
          have hxslash : x ≠ '/' := fun heq => hslash (heq ▸ List.mem_cons_self)
          cases cs with
          | nil => simp [joinSlash, hx, hxslash]
          | cons d ds => simp [joinSlash, List.intercalate_cons_cons, hx, hxslash]

theorem splitPath_eq_some {path : Text} {spath : List Text} :
    splitPath path = some spath ↔ isAbsolute path = true ∧ spath = names path := by
  cases h : isAbsolute path with
  | true =>
      rw [splitPath_absolute h]
      simp [eq_comm]
  | false =>
      have hhead : (fixDoubleSlashes (normpath path)).head? ≠ some '/' := by
        rw [fixDoubleSlashes_head]
        exact normpath_relative h
      simp [splitPath, splitLoop_relative _ hhead]

end Jailkit.JkLib
