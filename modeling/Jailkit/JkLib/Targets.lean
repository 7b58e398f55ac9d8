import Jailkit.JkLib.Paths
import Jailkit.Lib.Walks

/-!
Where `normpath` takes the target of a symlink, and when the kernel goes there too: if no
`..` stands behind a name, and no more of them in front than there are directories above.
-/
namespace Jailkit.JkLib

open Fs (ValidName components isAbsolute start Named DirsTo Walks)

def isNamed (c : Text) : Bool := decide (¬ (c = [] ∨ c = ['.']) ∧ c ≠ ['.', '.'])

def upNames (path : Text) : List Text := (components path).takeWhile fun c => !isNamed c

def downNames (path : Text) : List Text := (components path).dropWhile fun c => !isNamed c

def UpFirst (x : Loc) (target : Text) : Prop :=
  ['.', '.'] ∉ downNames target ∧ (upNames target).count ['.', '.'] ≤ (start x target).length

instance (x : Loc) (target : Text) : Decidable (UpFirst x target) :=
  inferInstanceAs (Decidable (_ ∧ _))

/-- The names that `normpath` makes of a symlink's target in the directory `x`. -/
def lexical (x : Loc) (target : Text) : List Text :=
  (components target).foldl (normStep true) (start x target)

/-- The same where the names `C` of a jail stand in front. -/
def landed (C x : Loc) (target : Text) : List Text :=
  (components target).foldl (normStep true) (C ++ start x target)

section

variable {entry : Loc → Option Entry} {ok : Loc → Text → Prop} {n : Nat} {x d : Loc}
  {cs ds : List Text}

theorem walks_stay_iff {c : Text} (hplain : c = [] ∨ c = ['.']) :
    Walks entry ok n x (c :: cs) d ↔ Walks entry ok n x cs d := by
  constructor
  · intro h
    cases h with
    | stay _ h => exact h
    | up _ _ => simp at hplain
    | down hc _ _ | follow hc _ _ _ _ _ => exact absurd hplain hc.1
  · exact fun h => .stay hplain h

theorem walks_up_iff (hdir : entry x = some .dir) :
    Walks entry ok n x (['.', '.'] :: cs) d ↔ Walks entry ok n x.dropLast cs d := by
  constructor
  · intro h
    cases h with
    | stay hplain _ => simp at hplain
    | up _ h => exact h
    | down hc _ _ | follow hc _ _ _ _ _ => exact absurd rfl hc.2
  · exact fun h => .up hdir h

theorem normStep_up {comps : List Text} (h : ['.', '.'] ∉ comps) :
    normStep true comps ['.', '.'] = comps.dropLast := by
  have hlast : comps.getLast? ≠ some ['.', '.'] := fun hl => h (List.mem_of_getLast? hl)
  simp [normStep, hlast]

/-- As long as only `..` is met the walk goes to what `normpath` keeps. -/
theorem walks_up (hx : DirsTo entry x) (hvalid : ['.', '.'] ∉ x)
    (hcs : ∀ c ∈ cs, isNamed c = false) :
    Walks entry ok n x (cs ++ ds) d ↔ Walks entry ok n (cs.foldl (normStep true) x) ds d := by
  induction cs generalizing x with
  | nil => exact Iff.rfl
  | cons c cs ih =>
      have hrest : ∀ c ∈ cs, isNamed c = false := fun c' hc' => hcs c' (List.mem_cons_of_mem c hc')
      have hc : (c = [] ∨ c = ['.']) ∨ c = ['.', '.'] := by
        have hnot : ¬ (¬ (c = [] ∨ c = ['.']) ∧ c ≠ ['.', '.']) :=
          of_decide_eq_false (hcs c List.mem_cons_self)
        by_cases hplain : c = [] ∨ c = ['.']
        · exact Or.inl hplain
        · exact Or.inr (Classical.not_not.mp fun hup => hnot ⟨hplain, hup⟩)
      rw [List.cons_append, List.foldl_cons]
      cases hc with
      | inl hplain =>
          have hstep : normStep true x c = x := by rw [normStep, if_pos hplain]
          rw [hstep, ← ih hx hvalid hrest, walks_stay_iff hplain]
      | inr hup =>
          have hdrop : DirsTo entry x.dropLast := Fs.dirsTo_prefix hx (List.dropLast_prefix x)
          have hvalid' : ['.', '.'] ∉ x.dropLast := fun hm => hvalid (List.dropLast_subset x hm)
          rw [hup, normStep_up hvalid, ← ih hdrop hvalid' hrest,
            walks_up_iff (hx x (List.prefix_refl x))]

/-- Empty names and dots are passed over. -/
theorem walks_filter (hup : ['.', '.'] ∉ cs) :
    Walks entry ok n x cs d ↔ Walks entry ok n x (cs.filter isNamed) d := by
  induction cs generalizing x n with
  | nil => exact Iff.rfl
  | cons c cs ih =>
      have hc : c ≠ ['.', '.'] := fun h => hup (h ▸ List.mem_cons_self)
      have hrest : ['.', '.'] ∉ cs := fun h => hup (List.mem_cons_of_mem c h)
      by_cases hnamed : isNamed c = true
      · rw [List.filter_cons_of_pos hnamed]
        constructor
        · intro h
          have hall : Walks entry ok n x ([c] ++ cs) d := h
          obtain ⟨i, j, e, hn, hi, hj⟩ := Fs.walks_split hall
          rw [hn]
          exact Fs.walks_append hi ((ih hrest).mp hj)
        · intro h
          have hall : Walks entry ok n x ([c] ++ cs.filter isNamed) d := h
          obtain ⟨i, j, e, hn, hi, hj⟩ := Fs.walks_split hall
          rw [hn]
          exact Fs.walks_append hi ((ih hrest).mpr hj)
      · have hplain : c = [] ∨ c = ['.'] :=
          Classical.not_not.mp fun hnot => hnamed (decide_eq_true ⟨hnot, hc⟩)
        rw [List.filter_cons_of_neg hnamed, ← ih hrest, walks_stay_iff hplain]

/-- A way on from a directory is a way from the root. -/
theorem walks_root (hx : DirsTo entry x) (hnamed : ∀ c ∈ x, Named c) :
    Walks entry ok n x cs d ↔ Walks entry ok n [] (x ++ cs) d := by
  have hto : Walks entry ok 0 [] x x := Fs.walks_dirs hnamed hx
  constructor
  · intro h
    have hall := Fs.walks_append hto h
    rwa [Nat.zero_add] at hall
  · intro h
    obtain ⟨i, j, e, hn, hi, hj⟩ := Fs.walks_split h
    obtain ⟨h0, he⟩ := Fs.walks_unique hto hi
    rwa [hn, ← h0, Nat.zero_add, he]

theorem foldl_normStep_filter (hup : ['.', '.'] ∉ cs) (comps : List Text) :
    cs.foldl (normStep true) comps = comps ++ cs.filter isNamed := by
  induction cs generalizing comps with
  | nil => simp
  | cons c cs ih =>
      have hc : c ≠ ['.', '.'] := fun h => hup (h ▸ List.mem_cons_self)
      have hrest : ['.', '.'] ∉ cs := fun h => hup (List.mem_cons_of_mem c h)
      rw [List.foldl_cons, ih hrest]
      by_cases hplain : c = [] ∨ c = ['.']
      · have hnot : ¬ isNamed c = true := fun h => (of_decide_eq_true h).1 hplain
        rw [normStep, if_pos hplain, List.filter_cons_of_neg hnot]
      · have hnamed : isNamed c = true := decide_eq_true ⟨hplain, hc⟩
        rw [normStep, if_neg hplain, if_pos (Or.inl hc), List.filter_cons_of_pos hnamed,
          List.append_assoc]
        rfl

theorem foldl_up_prefix (hvalid : ['.', '.'] ∉ x) (hcs : ∀ c ∈ cs, isNamed c = false) :
    cs.foldl (normStep true) x <+: x := by
  induction cs generalizing x with
  | nil => exact List.prefix_refl x
  | cons c cs ih =>
      have hrest : ∀ c ∈ cs, isNamed c = false := fun c' hc' => hcs c' (List.mem_cons_of_mem c hc')
      rw [List.foldl_cons]
      by_cases hup : c = ['.', '.']
      · have hvalid' : ['.', '.'] ∉ x.dropLast := fun hm => hvalid (List.dropLast_subset x hm)
        rw [hup, normStep_up hvalid]
        exact (ih hvalid' hrest).trans (List.dropLast_prefix x)
      · have hplain : c = [] ∨ c = ['.'] := by
          have hnot := of_decide_eq_false (hcs c List.mem_cons_self)
          exact Classical.not_not.mp fun h => hnot ⟨h, hup⟩
        rw [normStep, if_pos hplain]
        exact ih hvalid hrest

/-- With enough directories above, what is in front of them stays. -/
theorem foldl_up_append {C : Loc} (hC : ['.', '.'] ∉ C) (hvalid : ['.', '.'] ∉ x)
    (hcs : ∀ c ∈ cs, isNamed c = false) (hcount : cs.count ['.', '.'] ≤ x.length) :
    cs.foldl (normStep true) (C ++ x) = C ++ cs.foldl (normStep true) x := by
  induction cs generalizing x with
  | nil => rfl
  | cons c cs ih =>
      have hrest : ∀ c ∈ cs, isNamed c = false := fun c' hc' => hcs c' (List.mem_cons_of_mem c hc')
      have hall : ['.', '.'] ∉ C ++ x := fun h => (List.mem_append.mp h).elim hC hvalid
      rw [List.foldl_cons, List.foldl_cons]
      by_cases hup : c = ['.', '.']
      · have hvalid' : ['.', '.'] ∉ x.dropLast := fun hm => hvalid (List.dropLast_subset x hm)
        rw [hup, List.count_cons_self] at hcount
        have hne : x ≠ [] := by
          intro hnil
          rw [hnil] at hcount
          cases hcount
        have hlen : cs.count ['.', '.'] ≤ x.dropLast.length := by
          rw [List.length_dropLast]
          omega
        rw [hup, normStep_up hall, normStep_up hvalid, List.dropLast_append_of_ne_nil hne,
          ih hvalid' hrest hlen]
      · have hplain : c = [] ∨ c = ['.'] := by
          have hnot := of_decide_eq_false (hcs c List.mem_cons_self)
          exact Classical.not_not.mp fun h => hnot ⟨h, hup⟩
        rw [List.count_cons_of_ne hup] at hcount
        rw [normStep, if_pos hplain, normStep, if_pos hplain]
        exact ih hvalid hrest hcount

variable {t : Text}

theorem upNames_append (t : Text) : upNames t ++ downNames t = components t :=
  List.takeWhile_append_dropWhile

theorem isNamed_upNames (t : Text) : ∀ c ∈ upNames t, isNamed c = false := by
  intro c hc
  have hnot := List.mem_takeWhile_imp hc
  simpa using hnot

theorem not_mem_start (hvalid : ['.', '.'] ∉ x) : ['.', '.'] ∉ start x t := by
  rw [start]
  split
  · simp
  · exact hvalid

theorem lexical_eq (hu : UpFirst x t) :
    lexical x t = (upNames t).foldl (normStep true) (start x t) ++ (downNames t).filter isNamed := by
  rw [lexical, ← upNames_append, List.foldl_append, foldl_normStep_filter hu.1]

theorem lexical_append {C : Loc} (hC : ['.', '.'] ∉ C) (hvalid : ['.', '.'] ∉ x)
    (hu : UpFirst x t) : landed C x t = C ++ lexical x t := by
  rw [landed, lexical_eq hu, ← upNames_append, List.foldl_append, foldl_normStep_filter hu.1,
    foldl_up_append hC (not_mem_start hvalid) (isNamed_upNames t) hu.2, List.append_assoc]

/-- The kernel goes where the target leads by its names. -/
theorem walks_lexical (hx : DirsTo entry x) (hnamed : ∀ c ∈ x, Named c) (hu : UpFirst x t) :
    Walks entry ok n (start x t) (components t) d ↔ Walks entry ok n [] (lexical x t) d := by
  have hvalid : ['.', '.'] ∉ x := fun h => (hnamed _ h).2 rfl
  have hstart : start x t <+: x := by
    rw [start]
    split
    · exact List.nil_prefix
    · exact List.prefix_refl x
  have hpre : (upNames t).foldl (normStep true) (start x t) <+: start x t :=
    foldl_up_prefix (not_mem_start hvalid) (isNamed_upNames t)
  have hdirs := Fs.dirsTo_prefix hx hstart
  rw [lexical_eq hu, ← upNames_append, walks_up hdirs (not_mem_start hvalid) (isNamed_upNames t),
    walks_filter hu.1]
  exact walks_root (Fs.dirsTo_prefix hdirs hpre)
    fun c hc => hnamed c (hstart.subset (hpre.subset hc))

theorem foldl_valid {b : List Text} (hb : ∀ c ∈ b, ValidName c) :
    ∀ c ∈ (components t).foldl (normStep true) b, ValidName c := by
  have hparent : ['.', '.'] ∉ b := fun h => (hb _ h).2.2.1 rfl
  intro c hc
  cases mem_foldl_normStep _ _ hc with
  | inl hmem => exact hb c hmem
  | inr hmem =>
      refine ⟨hmem.2.1, hmem.2.2, ?_, not_mem_components hmem.1⟩
      intro hup
      rw [hup] at hc
      exact no_parent_foldl _ _ hparent hc

theorem start_valid (hvalid : ∀ c ∈ x, ValidName c) : ∀ c ∈ start x t, ValidName c := by
  rw [start]
  split
  · simp
  · exact hvalid

theorem lexical_valid (hvalid : ∀ c ∈ x, ValidName c) : ∀ c ∈ lexical x t, ValidName c :=
  foldl_valid (start_valid hvalid)

theorem landed_valid {C : Loc} (hC : ∀ c ∈ C, ValidName c) (hvalid : ∀ c ∈ x, ValidName c) :
    ∀ c ∈ landed C x t, ValidName c :=
  foldl_valid fun c hc => (List.mem_append.mp hc).elim (hC c) (start_valid hvalid c)

/-- A target that goes through directories only leads there. -/
theorem walks_target (hx : DirsTo entry x) (hvalid : ∀ c ∈ x, ValidName c) (hu : UpFirst x t)
    (ht : DirsTo entry (lexical x t)) :
    Walks entry ok 0 (start x t) (components t) (lexical x t) := by
  rw [walks_lexical hx (fun c hc => Fs.named_of_valid (hvalid c hc)) hu]
  have hto : Walks entry ok 0 [] (lexical x t) ([] ++ lexical x t) :=
    Fs.walks_dirs (fun c hc => Fs.named_of_valid (lexical_valid hvalid c hc)) ht
  exact hto

/-- For a path in which no `..` stands, the kernel goes by the names. -/
theorem walks_names (hup : ['.', '.'] ∉ components t) :
    Walks entry ok n [] (components t) d ↔ Walks entry ok n [] (names t) d := by
  rw [walks_filter hup, names, foldl_normStep_filter hup, List.nil_append]

theorem valid_of_named {name : Text} (hname : Named name) (hslash : '/' ∉ name) :
    ValidName name := by
  rw [Named, not_or] at hname
  exact ⟨hname.1.1, hname.1.2, hname.2, hslash⟩

theorem valid_snoc {name : Text} (hx : ∀ c ∈ x, ValidName c) (hname : ValidName name) :
    ∀ c ∈ x ++ [name], ValidName c :=
  List.forall_mem_append.mpr ⟨hx, List.forall_mem_singleton.mpr hname⟩

/-- The symlink that is followed has no slash in its parts either. -/
theorem target_slashless {name : Text} {rest : List Text}
    (hcs : ∀ c ∈ name :: rest, '/' ∉ c) : ∀ c ∈ components t ++ rest, '/' ∉ c := by
  intro c hc
  cases List.mem_append.mp hc with
  | inl htarget => exact not_mem_components htarget
  | inr hrest => exact hcs c (List.mem_cons_of_mem name hrest)

/-- Names that can be entries only lead to names that can be. -/
theorem walks_valid (h : Walks entry ok n x cs d) (hx : ∀ c ∈ x, ValidName c)
    (hcs : ∀ c ∈ cs, '/' ∉ c) : ∀ c ∈ d, ValidName c := by
  induction h with
  | here _ => exact hx
  | stay _ _ ih => exact ih hx fun c hc => hcs c (List.mem_cons_of_mem _ hc)
  | up _ _ ih =>
      apply ih
      · exact fun c hc => hx c (List.dropLast_subset _ hc)
      · exact fun c hc => hcs c (List.mem_cons_of_mem _ hc)
  | down hname _ _ ih =>
      apply ih
      · exact valid_snoc hx (valid_of_named hname (hcs _ List.mem_cons_self))
      · exact fun c hc => hcs c (List.mem_cons_of_mem _ hc)
  | follow _ _ _ _ _ _ ih => exact ih (start_valid hx) (target_slashless hcs)

theorem walkWith_valid {fs : Fs} {follow : Bool} {next : Loc → List Text → Option Loc} {l : Loc}
    (hnext : ∀ cur cs, (∀ c ∈ cur, ValidName c) → (∀ c ∈ cs, '/' ∉ c) → next cur cs = some l →
      ∀ c ∈ l, ValidName c) (cur : Loc) (cs : List Text) (hcur : ∀ c ∈ cur, ValidName c)
    (hcs : ∀ c ∈ cs, '/' ∉ c) (h : fs.walkWith follow next cur cs = some l) :
    ∀ c ∈ l, ValidName c := by
  rw [Fs.walkWith_eq_some] at h
  induction h with
  | here => exact hcur
  | stay _ _ _ ih => exact ih hnext hcur fun c hc => hcs c (List.mem_cons_of_mem _ hc)
  | up _ _ ih =>
      apply ih hnext
      · exact fun c hc => hcur c (List.dropLast_subset _ hc)
      · exact fun c hc => hcs c (List.mem_cons_of_mem _ hc)
  | missing _ hname | last _ hname =>
      exact valid_snoc hcur (valid_of_named hname (hcs _ List.mem_cons_self))
  | link _ _ _ _ _ h => exact hnext _ _ (start_valid hcur) (target_slashless hcs) h
  | down _ hname _ _ _ ih =>
      apply ih hnext (valid_snoc hcur (valid_of_named hname (hcs _ List.mem_cons_self)))
      exact fun c hc => hcs c (List.mem_cons_of_mem _ hc)

/-- So do the symlinks on the way to a name. -/
theorem locate_valid {fs : Fs} {follow : Bool} {path : Text} {l : Loc}
    (hcwd : ∀ c ∈ fs.cwd, ValidName c) (h : fs.locate follow path = some l) :
    ∀ c ∈ l, ValidName c := by
  have hwalk : ∀ n cur cs, (∀ c ∈ cur, ValidName c) → (∀ c ∈ cs, '/' ∉ c) →
      fs.walk follow n cur cs = some l → ∀ c ∈ l, ValidName c := by
    intro n
    induction n with
    | zero => exact walkWith_valid fun _ _ _ _ hnext => by cases hnext
    | succ n ih => exact walkWith_valid ih
  refine hwalk _ _ _ ?_ (fun c hc => not_mem_components hc) (Fs.locate_eq_some.mp h).2
  split
  · simp
  · exact hcwd

end

section

variable {b : List Text} {n t : Text} (hb : ∀ c ∈ b, ValidName c)

theorem joinPath_snoc (b : List Text) (n : Text) : joinPath (b ++ [n]) = slashed b ++ '/' :: n := by
  rw [joinPath, if_neg (by simp)]
  exact slashed_snoc b n

theorem joinPath_slashed (hne : b ≠ []) : joinPath b = slashed b := if_neg hne

theorem joinPath_append (hne : b ≠ []) (y : List Text) :
    joinPath (b ++ y) = joinPath b ++ slashed y := by
  rw [joinPath_slashed hne, joinPath_slashed (by simp [hne]), slashed, List.flatMap_append]
  rfl

theorem isAbsolute_joinPath (b : List Text) : isAbsolute (joinPath b) = true := by
  rw [joinPath]
  split
  · rfl
  next hne =>
    obtain ⟨c, cs, rfl⟩ := List.exists_cons_of_ne_nil hne
    rfl

include hb

theorem components_joinPath (hne : b ≠ []) : components (joinPath b) = [] :: b := by
  rw [joinPath_slashed hne, components_slashed b fun c hc => (hb c hc).2.2.2]

theorem names_joinPath : names (joinPath b) = b := by
  by_cases hne : b = []
  · rw [hne]
    rfl
  · rw [joinPath_slashed hne, names_slashed hb]

theorem walks_joinPath {entry : Loc → Option Entry} {ok : Loc → Text → Prop} {k : Nat} {d : Loc} :
    Walks entry ok k [] (components (joinPath b)) d ↔ Walks entry ok k [] b d := by
  have hup : ['.', '.'] ∉ components (joinPath b) := by
    by_cases hne : b = []
    · rw [hne]
      decide
    · rw [components_joinPath hb hne]
      intro hmem
      cases List.mem_cons.mp hmem with
      | inl hnil => cases hnil
      | inr hmem => exact (hb _ hmem).2.2.1 rfl
  rw [walks_names hup, names_joinPath hb]

theorem osPathJoin_joinPath (hn : ValidName n) : osPathJoin (joinPath b) n = joinPath (b ++ [n]) := by
  have hhead : n.head? ≠ some '/' := fun h => hn.2.2.2 (List.mem_of_head? h)
  rw [osPathJoin, if_neg hhead, joinPath_snoc]
  by_cases hne : b = []
  · rw [hne]
    exact if_pos (Or.inr rfl)
  · obtain ⟨t, c, hlast, hc⟩ := last_slashed hb hne
    rw [joinPath_slashed hne, if_neg]
    rw [hlast]
    simpa using hc

omit hb in
theorem osPathJoin_joinPath_slash (hne : b ≠ []) (hn : ValidName n) :
    osPathJoin (joinPath b ++ ['/']) n = joinPath (b ++ [n]) := by
  have hhead : n.head? ≠ some '/' := fun h => hn.2.2.2 (List.mem_of_head? h)
  rw [osPathJoin, if_neg hhead, if_pos (by simp), joinPath_slashed hne, joinPath_snoc]
  simp

theorem osPathJoin_joinPath_nil (hne : b ≠ []) : osPathJoin (joinPath b) [] = joinPath b ++ ['/'] := by
  obtain ⟨t, c, hlast, hc⟩ := last_slashed hb hne
  rw [osPathJoin, if_neg (by simp), joinPath_slashed hne, if_neg]
  rw [hlast]
  simpa using hc

theorem dirname_joinPath (hn : ValidName n) : dirname (joinPath (b ++ [n])) = joinPath b := by
  rw [joinPath_snoc, dirname_slashed hb hn.2.2.2]

omit hb

/-- A path that does not begin with two slashes. -/
theorem normpath_joinPath {path : Text} (habs : isAbsolute path = true)
    (hslash : path.take 2 ≠ ['/', '/']) : normpath path = joinPath (names path) := by
  have hhead : path.head? = some '/' := of_decide_eq_true habs
  have hne : path ≠ [] := by
    intro hnil
    rw [hnil] at hhead
    cases hhead
  have hinitial : initialSlashes path = ['/'] := by
    rw [initialSlashes, if_pos hhead, if_neg fun h => hslash h.1]
  rw [normpath, if_neg hne, habs, hinitial]
  dsimp only
  rw [if_neg (by simp), joinPath]
  split
  next hnil =>
    rw [show (components path).foldl (normStep true) [] = [] from hnil]
    rfl
  next hns => exact slash_joinSlash hns

theorem names_osPathJoin_relative {a : Text} (ha : a ≠ []) (ht : t.head? ≠ some '/') :
    names (osPathJoin a t) = (components t).foldl (normStep true) (names a) := by
  rw [osPathJoin, if_neg ht]
  split
  next hlast =>
    obtain ⟨a', ha'⟩ := eq_snoc_slash (hlast.resolve_left ha)
    rw [ha', List.append_assoc, List.singleton_append, names_slash, names_slash]
    rfl
  next => rw [names_slash]

end

end Jailkit.JkLib
