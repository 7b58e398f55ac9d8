import Jailkit.Lib.Files

/-!
How a path is followed, as a derivation: one rule for each thing that can stand at a name.
A later state of the file system is compared with an earlier one by induction on it.
-/
namespace Jailkit.Fs

/-- Where the target of a symlink in `cur` begins. -/
def start (cur : Loc) (target : Text) : Loc := if isAbsolute target then [] else cur

def Named (c : Text) : Prop := ¬ (c = [] ∨ c = ['.']) ∧ c ≠ ['.', '.']

/-- From `cur` the names lead to a location, with `next` for what comes behind a symlink. -/
inductive Leads (fs : Fs) (follow : Bool) (next : Loc → List Text → Option Loc) :
    Loc → List Text → Loc → Prop
  | here {cur : Loc} : Leads fs follow next cur [] cur
  | stay {cur l : Loc} {c : Text} {cs : List Text} : fs.entry cur = some .dir →
      c = [] ∨ c = ['.'] → Leads fs follow next cur cs l → Leads fs follow next cur (c :: cs) l
  | up {cur l : Loc} {cs : List Text} : fs.entry cur = some .dir →
      Leads fs follow next cur.dropLast cs l → Leads fs follow next cur (['.', '.'] :: cs) l
  | missing {cur : Loc} {c : Text} {cs : List Text} : fs.entry cur = some .dir → Named c →
      fs.entry (cur ++ [c]) = none → cs = [] → Leads fs follow next cur (c :: cs) (cur ++ [c])
  | last {cur : Loc} {c t : Text} {cs : List Text} : fs.entry cur = some .dir → Named c →
      fs.entry (cur ++ [c]) = some (.symlink t) → cs = [] → follow = false →
      Leads fs follow next cur (c :: cs) (cur ++ [c])
  | link {cur l : Loc} {c t : Text} {cs : List Text} : fs.entry cur = some .dir → Named c →
      fs.entry (cur ++ [c]) = some (.symlink t) → (cs = [] → follow = true) → t ≠ [] →
      next (start cur t) (components t ++ cs) = some l → Leads fs follow next cur (c :: cs) l
  | down {cur l : Loc} {c : Text} {e : Entry} {cs : List Text} : fs.entry cur = some .dir →
      Named c → fs.entry (cur ++ [c]) = some e → (∀ t, e ≠ .symlink t) →
      Leads fs follow next (cur ++ [c]) cs l → Leads fs follow next cur (c :: cs) l

section

variable {fs : Fs} {follow : Bool} {next : Loc → List Text → Option Loc} {cur l : Loc} {c : Text}
  {cs : List Text}

theorem named_of_valid (h : ValidName c) : Named c :=
  ⟨fun hc => hc.elim h.1 h.2.1, h.2.2.1⟩

theorem walkWith_stay (hdir : fs.entry cur = some .dir) (hc : c = [] ∨ c = ['.']) :
    fs.walkWith follow next cur (c :: cs) = fs.walkWith follow next cur cs := by
  rw [walkWith, if_neg fun hne => hne hdir, if_pos hc]

theorem walkWith_up (hdir : fs.entry cur = some .dir) :
    fs.walkWith follow next cur (['.', '.'] :: cs) = fs.walkWith follow next cur.dropLast cs := by
  rw [walkWith, if_neg fun hne => hne hdir, if_neg (by simp), if_pos rfl]

theorem walkWith_down {e : Entry} (hdir : fs.entry cur = some .dir) (hc : Named c)
    (he : fs.entry (cur ++ [c]) = some e) (hlink : ∀ t, e ≠ .symlink t) :
    fs.walkWith follow next cur (c :: cs) = fs.walkWith follow next (cur ++ [c]) cs := by
  rw [walkWith, if_neg fun hne => hne hdir, if_neg hc.1, if_neg hc.2, he]
  cases e with
  | symlink t => exact absurd rfl (hlink t)
  | dir | file ino => rfl

theorem walkWith_link {t : Text} (hdir : fs.entry cur = some .dir) (hc : Named c)
    (he : fs.entry (cur ++ [c]) = some (.symlink t)) (hlast : cs = [] → follow = true)
    (ht : t ≠ []) :
    fs.walkWith follow next cur (c :: cs) = next (start cur t) (components t ++ cs) := by
  have hend : ¬ (cs = [] ∧ follow = false) := fun h => by simp [hlast h.1] at h
  rw [walkWith, if_neg fun hne => hne hdir, if_neg hc.1, if_neg hc.2, he]
  dsimp only
  rw [if_neg hend, if_neg ht]
  rfl

theorem walkWith_missing (hdir : fs.entry cur = some .dir) (hc : Named c)
    (he : fs.entry (cur ++ [c]) = none) (hcs : cs = []) :
    fs.walkWith follow next cur (c :: cs) = some (cur ++ [c]) := by
  rw [walkWith, if_neg fun hne => hne hdir, if_neg hc.1, if_neg hc.2, he]
  exact if_pos hcs

theorem leads_of_walkWith (h : fs.walkWith follow next cur cs = some l) :
    fs.Leads follow next cur cs l := by
  induction cs generalizing cur with
  | nil =>
      cases h
      exact .here
  | cons c cs ih =>
      rw [walkWith] at h
      split at h
      · cases h
      next hdir =>
        have hdir := Classical.not_not.mp hdir
        split at h
        next hc => exact .stay hdir hc (ih h)
        next hc =>
          split at h
          next hup =>
            rw [hup]
            exact .up hdir (ih h)
          next hup =>
            cases he : fs.entry (cur ++ [c]) with
            | none =>
                simp only [he] at h
                split at h
                next hcs =>
                  cases h
                  exact .missing hdir ⟨hc, hup⟩ he hcs
                next => cases h
            | some e =>
                cases e with
                | symlink t =>
                    simp only [he] at h
                    split at h
                    next hlast =>
                      cases h
                      exact .last hdir ⟨hc, hup⟩ he hlast.1 hlast.2
                    next hlast =>
                      split at h
                      · cases h
                      next ht =>
                        have hfollow : cs = [] → follow = true := fun hcs =>
                          (Bool.not_eq_false _).mp fun hf => hlast ⟨hcs, hf⟩
                        exact .link hdir ⟨hc, hup⟩ he hfollow ht h
                | dir | file ino =>
                    simp only [he] at h
                    exact .down hdir ⟨hc, hup⟩ he (by simp) (ih h)

/-- The walk goes by the rules. -/
theorem walkWith_eq_some :
    fs.walkWith follow next cur cs = some l ↔ fs.Leads follow next cur cs l := by
  refine ⟨leads_of_walkWith, fun h => ?_⟩
  induction h with
  | here => rfl
  | stay hdir hc _ ih => rwa [walkWith_stay hdir hc]
  | up hdir _ ih => rwa [walkWith_up hdir]
  | missing hdir hc he hcs => exact walkWith_missing hdir hc he hcs
  | last hdir hc he hcs hfollow =>
      rw [walkWith, if_neg fun hne => hne hdir, if_neg hc.1, if_neg hc.2, he]
      exact if_pos ⟨hcs, hfollow⟩
  | link hdir hc he hlast ht h => rwa [walkWith_link hdir hc he hlast ht]
  | down hdir hc he hlink _ ih => rwa [walkWith_down hdir hc he hlink]

/-- A last name that is not followed is found without a look behind it. -/
theorem walkWith_unfollowed (hdir : fs.entry cur = some .dir) (hc : Named c) :
    fs.walkWith false next cur [c] = some (cur ++ [c]) := by
  rw [walkWith, if_neg fun hne => hne hdir, if_neg hc.1, if_neg hc.2]
  cases fs.entry (cur ++ [c]) with
  | none => rfl
  | some e =>
      cases e with
      | dir | file _ | symlink _ => rfl

theorem walkWith_start (hcs : cs ≠ []) (h : fs.walkWith follow next cur cs = some l) :
    fs.entry cur = some .dir := by
  cases walkWith_eq_some.mp h with
  | here => exact absurd rfl hcs
  | stay hdir | up hdir | missing hdir | last hdir | link hdir | down hdir => exact hdir

end

theorem walkWith_parent {fs : Fs} {follow : Bool} {next : Loc → List Text → Option Loc}
    (hnested : fs.Nested) {l : Loc} (hnone : fs.entry l = none)
    (hnext : ∀ cur cs, cs ≠ [] → next cur cs = some l → fs.entry l.dropLast = some .dir)
    (cur : Loc) (cs : List Text) (hcs : cs ≠ []) (h : fs.walkWith follow next cur cs = some l) :
    fs.entry l.dropLast = some .dir := by
  rw [walkWith_eq_some] at h
  have hparent : ∀ x, fs.entry x = some .dir → fs.entry x.dropLast = some .dir := by
    intro x hx
    by_cases hroot : x = []
    · rw [hroot]
      exact entry_root fs
    · refine hnested x.dropLast (x.getLast hroot) ?_
      rw [List.dropLast_append_getLast hroot, hx]
      rfl
  -- a walk that ends where something stands has not come to `l`
  have hend : ∀ {x cs}, fs.Leads follow next x cs l → (fs.entry x).isSome → cs ≠ [] := by
    intro x cs h hsome hnil
    subst hnil
    cases h
    rw [hnone] at hsome
    cases hsome
  induction h with
  | here => exact absurd rfl hcs
  | stay hdir _ h ih => exact ih hnone hnext (hend h (by rw [hdir]; rfl)) hend
  | @up cur _ _ hdir h ih =>
      exact ih hnone hnext (hend h (by rw [hparent cur hdir]; rfl)) hend
  | missing hdir => rwa [List.dropLast_concat]
  | last _ _ he =>
      rw [he] at hnone
      cases hnone
  | @link _ _ _ t cs _ _ _ _ ht h => exact hnext _ _ (by simp [components, List.splitOn_ne_nil]) h
  | down _ _ he _ h ih => exact ih hnone hnext (hend h (by rw [he]; rfl)) hend

theorem walk_parent {fs : Fs} {follow : Bool} (hnested : fs.Nested) {l : Loc}
    (hnone : fs.entry l = none) (n : Nat) (cur : Loc) (cs : List Text) (hcs : cs ≠ [])
    (h : fs.walk follow n cur cs = some l) : fs.entry l.dropLast = some .dir := by
  induction n generalizing cur cs with
  | zero => exact walkWith_parent hnested hnone (fun _ _ _ hnext => by cases hnext) cur cs hcs h
  | succ n ih => exact walkWith_parent hnested hnone ih cur cs hcs h

/-- The second walk follows a last symlink if the first one does, or if there is none. -/
def FollowsAs (fs : Fs) (follow follow' : Bool) (l : Loc) : Prop :=
  follow = follow' ∨ follow = false ∧ ∀ t, fs.entry l ≠ some (.symlink t)

theorem walkWith_keepsLinks {fs fs' : Fs} (h : KeepsLinks fs fs') {follow follow' : Bool}
    {next next' : Loc → List Text → Option Loc}
    (hnext : ∀ cur cs l l', next cur cs = some l → next' cur cs = some l' →
      FollowsAs fs follow follow' l → (fs'.entry l').isSome → l' = l)
    (cur : Loc) (cs : List Text) (l l' : Loc)
    (hl : fs.walkWith follow next cur cs = some l)
    (hl' : fs'.walkWith follow' next' cur cs = some l')
    (hfollow : FollowsAs fs follow follow' l) (hsome : (fs'.entry l').isSome) :
    l' = l := by
  rw [walkWith_eq_some] at hl hl'
  induction hl with
  | here =>
      cases hl'
      rfl
  | stay _ hc _ ih =>
      cases hl' with
      | stay _ _ hl' => exact ih hl' hfollow
      | up _ _ => simp at hc
      | missing _ hname | last _ hname | link _ hname | down _ hname => exact absurd hc hname.1
  | up _ _ ih =>
      cases hl' with
      | stay _ hc _ => simp at hc
      | up _ hl' => exact ih hl' hfollow
      | missing _ hname | last _ hname | link _ hname | down _ hname => exact absurd rfl hname.2
  | missing _ hname he hcs =>
      cases hl' with
      | stay _ hc _ => exact absurd hc hname.1
      | up _ _ => exact absurd rfl hname.2
      | missing | last => rfl
      | link _ _ he' _ _ _ =>
          rw [(h.2 _ _).1 he'] at he
          cases he
      | down _ _ _ _ hl' =>
          subst hcs
          cases hl'
          rfl
  | last _ hname he hcs hf =>
      cases hl' with
      | stay _ hc _ => exact absurd hc hname.1
      | up _ _ => exact absurd rfl hname.2
      | missing | last => rfl
      | link _ _ _ hlast _ _ =>
          have hsame : follow = follow' := hfollow.resolve_right fun hnot => hnot.2 _ he
          rw [hsame, hlast hcs] at hf
          cases hf
      | down _ _ _ _ hl' =>
          subst hcs
          cases hl'
          rfl
  | link _ hname he hlast _ hl =>
      cases hl' with
      | stay _ hc _ => exact absurd hc hname.1
      | up _ _ => exact absurd rfl hname.2
      | missing _ _ he' _ => simp [he'] at hsome
      | last _ _ _ hcs hf' =>
          -- only a walk that does not follow ends at a symlink
          have hf := hlast hcs
          cases hfollow with
          | inl hsame =>
              rw [hsame, hf'] at hf
              cases hf
          | inr hnot =>
              rw [hnot.1] at hf
              cases hf
      | link _ _ he' _ _ hl' =>
          rw [(h.2 _ _).1 he'] at he
          cases he
          exact hnext _ _ _ _ hl hl' hfollow hsome
      | down _ _ he' hnot _ =>
          cases (h.2 _ _).2 he with
          | inl hsame =>
              rw [hsame] at he'
              cases he'
              exact absurd rfl (hnot _)
          | inr hgone =>
              rw [hgone] at he'
              cases he'
  | @down cur _ c _ _ _ hname he hnot _ ih =>
      have hlink : ∀ t, fs'.entry (cur ++ [c]) ≠ some (.symlink t) := by
        intro t he'
        rw [(h.2 _ t).1 he'] at he
        cases he
        exact hnot t rfl
      cases hl' with
      | stay _ hc _ => exact absurd hc hname.1
      | up _ _ => exact absurd rfl hname.2
      | missing _ _ he' _ => simp [he'] at hsome
      | last _ _ he' _ _ | link _ _ he' _ _ _ => exact absurd he' (hlink _)
      | down _ _ _ _ hl' => exact ih hl' hfollow

theorem walk_keepsLinks {fs fs' : Fs} (h : KeepsLinks fs fs') {follow follow' : Bool} (n : Nat)
    (cur : Loc) (cs : List Text) (l l' : Loc) (hl : fs.walk follow n cur cs = some l)
    (hl' : fs'.walk follow' n cur cs = some l') (hfollow : FollowsAs fs follow follow' l)
    (hsome : (fs'.entry l').isSome) : l' = l := by
  induction n generalizing cur cs l l' with
  | zero =>
      exact walkWith_keepsLinks h (fun _ _ _ _ hnone => by cases hnone) cur cs l l' hl hl'
        hfollow hsome
  | succ n ih => exact walkWith_keepsLinks h ih cur cs l l' hl hl' hfollow hsome

theorem locate_eq_some {fs : Fs} {follow : Bool} {path : Text} {l : Loc} :
    fs.locate follow path = some l ↔ path ≠ [] ∧
      fs.walk follow maxSymlinks (if isAbsolute path then [] else fs.cwd) (components path) =
        some l := by
  rw [locate]
  split
  next hpath => simp [hpath]
  next hpath => simp [hpath]

/-- A name that is free is one in a directory. -/
theorem place_parent {fs : Fs} (hnested : fs.Nested) {path : Text} {l : Loc}
    (h : fs.place path = some l) : fs.entry l.dropLast = some .dir := by
  obtain ⟨hloc, hnone⟩ := place_eq_some.mp h
  exact walk_parent hnested hnone _ _ _ (List.splitOn_ne_nil '/' path) (locate_eq_some.mp hloc).2

/-- A path that named a location still names it, or nothing. -/
theorem locate_keepsLinks {fs fs' : Fs} (h : KeepsLinks fs fs') {follow follow' : Bool}
    {path : Text} {l l' : Loc} (hl : fs.locate follow path = some l)
    (hl' : fs'.resolve follow' path = some l') (hfollow : FollowsAs fs follow follow' l) :
    l' = l := by
  obtain ⟨hloc, hsome⟩ := resolve_eq_some.mp hl'
  rw [locate_eq_some] at hl hloc
  rw [h.1] at hloc
  exact walk_keepsLinks h _ _ _ l l' hl.2 hloc.2 hfollow hsome

theorem isAbsolute_append {path : Text} (hpath : path ≠ []) (t : Text) :
    isAbsolute (path ++ t) = isAbsolute path := by
  cases path with
  | nil => exact absurd rfl hpath
  | cons c path => rfl

theorem isAbsolute_slash (head rest : Text) :
    isAbsolute (head ++ ['/']) = isAbsolute (head ++ '/' :: rest) := by
  cases head with
  | nil | cons c head => rfl

theorem components_append_slash (path t : Text) :
    components (path ++ '/' :: t) = components path ++ components t :=
  List.splitOn_append_cons_self path t

theorem components_append (path : Text) {name : Text} (h : '/' ∉ name) :
    components (path ++ '/' :: name) = components path ++ [name] := by
  rw [components, List.splitOn_append_cons_self, List.splitOn_eq_singleton h, components]

/-- The last name of a path adds itself, unless a symlink is followed there. -/
def Child (fs : Fs) (follow : Bool) (d : Loc) (name : Text) (l : Loc) : Prop :=
  fs.entry d = some .dir ∧
    (l = d ++ [name] ∨ follow = true ∧ ∃ t, fs.entry (d ++ [name]) = some (.symlink t))

theorem walkWith_last {fs : Fs} {follow : Bool} {name : Text} (hname : ValidName name)
    {next : Loc → List Text → Option Loc} {cur l : Loc}
    (hl : fs.walkWith follow next cur [name] = some l) : fs.Child follow cur name l := by
  have hnamed := named_of_valid hname
  cases walkWith_eq_some.mp hl with
  | stay _ hc _ => exact absurd hc hnamed.1
  | up _ _ => exact absurd rfl hnamed.2
  | missing hdir | last hdir => exact ⟨hdir, Or.inl rfl⟩
  | link hdir _ he hlast _ _ => exact ⟨hdir, Or.inr ⟨hlast rfl, _, he⟩⟩
  | down hdir _ _ _ hl =>
      cases hl
      exact ⟨hdir, Or.inl rfl⟩

/-- Two walks over the same names that differ at the end: what relates their results
there relates them at any distance. -/
theorem walkWith_append {fs : Fs} {follow : Bool} {ta tb : List Text} (hta : ta ≠ [])
    {R : Loc → Loc → Prop} {next next' : Loc → List Text → Option Loc}
    (hend : ∀ cur l, fs.walkWith follow next cur ta = some l →
      ∃ d, fs.walkWith true next' cur tb = some d ∧ R d l)
    (hnext : ∀ cur cs l, next cur (cs ++ ta) = some l →
      ∃ d, next' cur (cs ++ tb) = some d ∧ R d l)
    (cur : Loc) (cs : List Text) (l : Loc)
    (hl : fs.walkWith follow next cur (cs ++ ta) = some l) :
    ∃ d, fs.walkWith true next' cur (cs ++ tb) = some d ∧ R d l := by
  induction cs generalizing cur with
  | nil => exact hend cur l hl
  | cons c cs ih =>
      have hne : cs ++ ta ≠ [] := by simp [hta]
      rw [List.cons_append] at hl ⊢
      cases walkWith_eq_some.mp hl with
      | stay hdir hc hl =>
          rw [walkWith_stay hdir hc]
          exact ih cur (walkWith_eq_some.mpr hl)
      | up hdir hl =>
          rw [walkWith_up hdir]
          exact ih _ (walkWith_eq_some.mpr hl)
      | missing _ _ _ hcs | last _ _ _ hcs _ => exact absurd hcs hne
      | link hdir hname he _ ht hl =>
          rw [← List.append_assoc] at hl
          obtain ⟨d, hd, hrest⟩ := hnext _ _ _ hl
          rw [List.append_assoc] at hd
          refine ⟨d, ?_, hrest⟩
          rwa [walkWith_link hdir hname he (fun _ => rfl) ht]
      | down hdir hname he hlink hl =>
          rw [walkWith_down hdir hname he hlink]
          exact ih _ (walkWith_eq_some.mpr hl)

theorem walk_append {fs : Fs} {follow : Bool} {ta tb : List Text} (hta : ta ≠ [])
    {R : Loc → Loc → Prop}
    (hend : ∀ next next' cur l, fs.walkWith follow next cur ta = some l →
      ∃ d, fs.walkWith true next' cur tb = some d ∧ R d l)
    (n : Nat) (cur : Loc) (cs : List Text) (l : Loc)
    (hl : fs.walk follow n cur (cs ++ ta) = some l) :
    ∃ d, fs.walk true n cur (cs ++ tb) = some d ∧ R d l := by
  induction n generalizing cur cs l with
  | zero => exact walkWith_append hta (hend _ _) (fun _ _ _ hnone => by cases hnone) cur cs l hl
  | succ n ih => exact walkWith_append hta (hend _ _) ih cur cs l hl

/-- Two paths that begin with the same names. -/
theorem locate_append {fs : Fs} {follow : Bool} {path path' : Text} {cs ta tb : List Text}
    {l : Loc} (hta : ta ≠ []) {R : Loc → Loc → Prop}
    (hend : ∀ next next' cur l, fs.walkWith follow next cur ta = some l →
      ∃ d, fs.walkWith true next' cur tb = some d ∧ R d l)
    (hpath : components path = cs ++ ta) (hpath' : components path' = cs ++ tb)
    (hne : path' ≠ []) (habs : isAbsolute path' = isAbsolute path)
    (hl : fs.locate follow path = some l) :
    ∃ d, fs.locate true path' = some d ∧ R d l := by
  have hwalk := (locate_eq_some.mp hl).2
  rw [hpath] at hwalk
  rw [locate, if_neg hne, habs, hpath']
  exact walk_append hta hend _ _ _ _ hwalk

/-- A name in a directory stands at the location of the directory, however the path
reaches that. -/
theorem locate_child {fs : Fs} {follow : Bool} {path name : Text} {l : Loc} (hpath : path ≠ [])
    (hname : ValidName name) (hl : fs.locate follow (path ++ '/' :: name) = some l) :
    ∃ d, fs.resolve true path = some d ∧ fs.Child follow d name l := by
  have hhead := (isAbsolute_append hpath ('/' :: name)).symm
  obtain ⟨d, hd, hchild⟩ := locate_append (List.cons_ne_nil name [])
    (fun _ _ cur _ h => ⟨cur, rfl, walkWith_last hname h⟩)
    (components_append path hname.2.2.2) (List.append_nil _).symm hpath hhead hl
  exact ⟨d, resolve_eq_some.mpr ⟨hd, by rw [hchild.1]; rfl⟩, hchild⟩

theorem walkWith_slash {fs : Fs} {follow : Bool} {next : Loc → List Text → Option Loc}
    {cur l : Loc} :
    fs.walkWith follow next cur [[]] = some l ↔ cur = l ∧ fs.entry cur = some .dir := by
  rw [walkWith, if_pos (Or.inl rfl), walkWith]
  split
  next h => simp [h]
  next h => simp [Classical.not_not.mp h]

theorem components_slash_end (path : Text) :
    components (path ++ ['/']) = components path ++ [[]] :=
  components_append path List.not_mem_nil

/-- A slash at the end asks for a directory. -/
theorem locate_slash {fs : Fs} {follow : Bool} {path : Text} {l : Loc} (hpath : path ≠ [])
    (hl : fs.locate follow (path ++ ['/']) = some l) :
    fs.locate true path = some l ∧ fs.entry l = some .dir := by
  have hhead := (isAbsolute_append hpath ['/']).symm
  obtain ⟨d, hd, heq, hdir⟩ := locate_append (List.cons_ne_nil [] [])
    (fun _ _ cur _ h => ⟨cur, rfl, walkWith_slash.mp h⟩)
    (components_slash_end path) (List.append_nil _).symm hpath hhead hl
  rw [← heq]
  exact ⟨hd, hdir⟩

/-- A path that leads to a directory leads there without the slashes at its end. -/
theorem locate_dirPath {fs : Fs} {path : Text} {l : Loc} (hl : fs.locate true path = some l) :
    fs.locate true (dirPath path) = some l := by
  induction path using List.reverseRecOn with
  | nil => exact hl
  | append_singleton path c ih =>
      rw [dirPath]
      split
      · exact hl
      next hall =>
        by_cases hc : c = '/'
        · subst hc
          have hrest : ¬ (path.all fun x => decide (x = '/')) = true := by simpa using hall
          have hne : path ≠ [] := by
            intro hnil
            rw [hnil] at hrest
            exact hrest rfl
          have hshort := ih (locate_slash hne hl).1
          rw [dirPath, if_neg hrest] at hshort
          rwa [List.rdropWhile_concat_pos _ _ _ (by simp)]
        · rwa [List.rdropWhile_concat_neg _ _ _ (by simp [hc])]

theorem resolve_dirPath {fs : Fs} {path : Text} {l : Loc} (hl : fs.resolve true path = some l) :
    fs.resolve true (dirPath path) = some l := by
  obtain ⟨hloc, he⟩ := resolve_eq_some.mp hl
  exact resolve_eq_some.mpr ⟨locate_dirPath hloc, he⟩

/-- A name behind a path that ends in a slash. -/
theorem locate_slash_child {fs : Fs} {follow : Bool} {path name : Text} {l : Loc}
    (hpath : path.getLast? = some '/') (hname : ValidName name)
    (hl : fs.locate follow (path ++ name) = some l) :
    ∃ d, fs.locate true path = some d ∧ fs.Child follow d name l := by
  obtain ⟨head, rfl⟩ : ∃ head, path = head ++ ['/'] :=
    ⟨path.dropLast, (List.dropLast_append_getLast? '/' hpath).symm⟩
  have htext : head ++ ['/'] ++ name = head ++ '/' :: name := by simp
  have hhead := isAbsolute_slash head name
  rw [htext] at hl
  refine locate_append (List.cons_ne_nil name []) (fun _ _ cur _ h => ?_)
    (components_append head hname.2.2.2) (components_slash_end head) (by simp) hhead hl
  have hchild := walkWith_last hname h
  exact ⟨cur, walkWith_slash.mpr ⟨rfl, hchild.1⟩, hchild⟩

theorem walkWith_follow {fs : Fs} {next next' : Loc → List Text → Option Loc} {l : Loc}
    (hl : ∀ t, fs.entry l ≠ some (.symlink t))
    (hnext : ∀ cur cs, next cur cs = some l → next' cur cs = some l) (cur : Loc)
    (cs : List Text) (h : fs.walkWith false next cur cs = some l) :
    fs.walkWith true next' cur cs = some l := by
  rw [walkWith_eq_some] at h ⊢
  induction h with
  | here => exact .here
  | stay hdir hc _ ih => exact .stay hdir hc (ih hl hnext)
  | up hdir _ ih => exact .up hdir (ih hl hnext)
  | missing hdir hname he hcs => exact .missing hdir hname he hcs
  | last _ _ he _ _ => exact absurd he (hl _)
  | link hdir hname he _ ht h => exact .link hdir hname he (fun _ => rfl) ht (hnext _ _ h)
  | down hdir hname he hlink _ ih => exact .down hdir hname he hlink (ih hl hnext)

theorem walk_follow {fs : Fs} {l : Loc} (hl : ∀ t, fs.entry l ≠ some (.symlink t)) (n : Nat)
    (cur : Loc) (cs : List Text) (h : fs.walk false n cur cs = some l) :
    fs.walk true n cur cs = some l := by
  induction n generalizing cur cs with
  | zero => exact walkWith_follow hl (fun _ _ hnone => hnone) cur cs h
  | succ n ih => exact walkWith_follow hl ih cur cs h

theorem locate_follow {fs : Fs} {path : Text} {l : Loc} (h : fs.locate false path = some l)
    (hl : ∀ t, fs.entry l ≠ some (.symlink t)) : fs.locate true path = some l := by
  rw [locate_eq_some] at h ⊢
  exact ⟨h.1, walk_follow hl _ _ _ h.2⟩

theorem lookup_follow {fs : Fs} {path : Text} {e : Entry} (h : fs.lookup false path = some e)
    (he : ∀ t, e ≠ .symlink t) : fs.lookup true path = some e := by
  obtain ⟨l, hl, hentry⟩ := Option.bind_eq_some_iff.mp h
  rw [lookup, locate_follow hl (by simpa [hentry] using he), Option.bind_some, hentry]

end Jailkit.Fs
