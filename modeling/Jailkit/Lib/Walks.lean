import Jailkit.Lib.Ways
import Mathlib.Data.List.Infix

/-!
The way to a directory as a derivation, with the number of the symlinks that are followed.
Entries are given by a function of the location, so that one relation serves for the file
system and for a part of it that a process takes for the whole.
-/
namespace Jailkit.Fs

/-- From `cur` the names lead to a directory, through `n` symlinks that are all `ok`. -/
inductive Walks (entry : Loc → Option Entry) (ok : Loc → Text → Prop) :
    Nat → Loc → List Text → Loc → Prop
  | here {cur : Loc} : entry cur = some .dir → Walks entry ok 0 cur [] cur
  | stay {n : Nat} {cur l : Loc} {c : Text} {cs : List Text} : c = [] ∨ c = ['.'] →
      Walks entry ok n cur cs l → Walks entry ok n cur (c :: cs) l
  | up {n : Nat} {cur l : Loc} {cs : List Text} : entry cur = some .dir →
      Walks entry ok n cur.dropLast cs l → Walks entry ok n cur (['.', '.'] :: cs) l
  | down {n : Nat} {cur l : Loc} {c : Text} {cs : List Text} : Named c →
      entry cur = some .dir → Walks entry ok n (cur ++ [c]) cs l → Walks entry ok n cur (c :: cs) l
  | follow {n : Nat} {cur l : Loc} {c t : Text} {cs : List Text} : Named c →
      entry cur = some .dir → entry (cur ++ [c]) = some (.symlink t) → t ≠ [] → ok cur t →
      Walks entry ok n (start cur t) (components t ++ cs) l → Walks entry ok (n + 1) cur (c :: cs) l

/-- Each location on the way is a directory, so that the way has no symlink in it. -/
def DirsTo (entry : Loc → Option Entry) (loc : Loc) : Prop :=
  ∀ x, x <+: loc → entry x = some .dir

instance (entry : Loc → Option Entry) (loc : Loc) : Decidable (DirsTo entry loc) :=
  decidable_of_iff (∀ x ∈ loc.inits, entry x = some .dir) <| by
    simp only [List.mem_inits, DirsTo]

section

variable {entry entry' : Loc → Option Entry} {ok ok' : Loc → Text → Prop} {n m : Nat}
  {cur d l : Loc} {cs ds : List Text}

theorem walks_start (h : Walks entry ok n cur cs l) : entry cur = some .dir := by
  induction h with
  | here hdir => exact hdir
  | stay _ _ ih => exact ih
  | up hdir _ _ => exact hdir
  | down _ hdir _ _ => exact hdir
  | follow _ hdir _ _ _ _ _ => exact hdir

theorem walks_end (h : Walks entry ok n cur cs l) : entry l = some .dir := by
  induction h with
  | here hdir => exact hdir
  | stay _ _ ih | up _ _ ih | down _ _ _ ih | follow _ _ _ _ _ _ ih => exact ih

theorem walks_mono (h : Walks entry ok n cur cs l)
    (hentry : ∀ x e, entry x = some e → entry' x = some e) (hok : ∀ x t, ok x t → ok' x t) :
    Walks entry' ok' n cur cs l := by
  induction h with
  | here hdir => exact .here (hentry _ _ hdir)
  | stay hc _ ih => exact .stay hc ih
  | up hdir _ ih => exact .up (hentry _ _ hdir) ih
  | down hc hdir _ ih => exact .down hc (hentry _ _ hdir) ih
  | follow hc hdir hlink ht hP _ ih =>
      exact .follow hc (hentry _ _ hdir) (hentry _ _ hlink) ht (hok _ _ hP) ih

theorem walks_append (h : Walks entry ok n cur cs d) (h' : Walks entry ok m d ds l) :
    Walks entry ok (n + m) cur (cs ++ ds) l := by
  induction h with
  | here _ => rwa [Nat.zero_add]
  | stay hc _ ih => exact .stay hc (ih h')
  | up hdir _ ih => exact .up hdir (ih h')
  | down hc hdir _ ih => exact .down hc hdir (ih h')
  | follow hc hdir hlink ht hP _ ih =>
      rw [Nat.add_right_comm]
      have hrest := ih h'
      rw [List.append_assoc] at hrest
      exact .follow hc hdir hlink ht hP hrest

theorem walks_split_nil {es : List Text} (heq : ds = es) (h : Walks entry ok n cur es l) :
    ∃ i j d, n = i + j ∧ Walks entry ok i cur [] d ∧ Walks entry ok j d ds l := by
  subst heq
  exact ⟨0, n, cur, (Nat.zero_add n).symm, .here (walks_start h), h⟩

theorem walks_split (h : Walks entry ok n cur (cs ++ ds) l) :
    ∃ i j d, n = i + j ∧ Walks entry ok i cur cs d ∧ Walks entry ok j d ds l := by
  generalize heq : cs ++ ds = es at h
  induction h generalizing cs with
  | @here cur hdir =>
      obtain ⟨hcs, hds⟩ := List.append_eq_nil_iff.mp heq
      rw [hcs, hds]
      exact ⟨0, 0, cur, rfl, .here hdir, .here hdir⟩
  | stay hc h ih =>
      cases cs with
      | nil => exact walks_split_nil heq (.stay hc h)
      | cons c' cs =>
          cases heq
          obtain ⟨i, j, d, hn, hi, hj⟩ := ih rfl
          exact ⟨i, j, d, hn, .stay hc hi, hj⟩
  | up hdir h ih =>
      cases cs with
      | nil => exact walks_split_nil heq (.up hdir h)
      | cons c' cs =>
          cases heq
          obtain ⟨i, j, d, hn, hi, hj⟩ := ih rfl
          exact ⟨i, j, d, hn, .up hdir hi, hj⟩
  | down hc hdir h ih =>
      cases cs with
      | nil => exact walks_split_nil heq (.down hc hdir h)
      | cons c' cs =>
          cases heq
          obtain ⟨i, j, d, hn, hi, hj⟩ := ih rfl
          exact ⟨i, j, d, hn, .down hc hdir hi, hj⟩
  | @follow _ _ _ _ t _ hc hdir hlink ht hP h ih =>
      cases cs with
      | nil => exact walks_split_nil heq (.follow hc hdir hlink ht hP h)
      | cons c' cs =>
          cases heq
          obtain ⟨i, j, d, hn, hi, hj⟩ := @ih (components t ++ cs) (List.append_assoc _ _ _)
          exact ⟨i + 1, j, d, by omega, .follow hc hdir hlink ht hP hi, hj⟩

/-- The names lead to one directory, on one way. -/
theorem walks_unique {l' : Loc} (h : Walks entry ok n cur cs l)
    (h' : Walks entry ok' m cur cs l') : n = m ∧ l = l' := by
  induction h generalizing m with
  | here _ =>
      cases h'
      exact ⟨rfl, rfl⟩
  | stay hc _ ih =>
      cases h' with
      | stay _ h' => exact ih h'
      | up _ _ => simp at hc
      | down hc' _ _ | follow hc' _ _ _ _ _ => exact absurd hc hc'.1
  | up _ _ ih =>
      cases h' with
      | stay hc _ => simp at hc
      | up _ h' => exact ih h'
      | down hc' _ _ | follow hc' _ _ _ _ _ => exact absurd rfl hc'.2
  | down hc _ h ih =>
      cases h' with
      | stay hc' _ => exact absurd hc' hc.1
      | up _ _ => exact absurd rfl hc.2
      | down _ _ h' => exact ih h'
      | follow _ _ hlink _ _ _ =>
          rw [walks_start h] at hlink
          cases hlink
  | follow hc _ hlink _ _ _ ih =>
      cases h' with
      | stay hc' _ => exact absurd hc' hc.1
      | up _ _ => exact absurd rfl hc.2
      | down _ _ h' =>
          rw [walks_start h'] at hlink
          cases hlink
      | follow _ _ hlink' _ _ h' =>
          rw [hlink] at hlink'
          cases hlink'
          obtain ⟨hn, hl⟩ := ih h'
          exact ⟨congrArg (· + 1) hn, hl⟩

/-- Where a part of the way is known, the rest goes on from there. -/
theorem walks_rest (h : Walks entry ok n cur cs d) (hall : Walks entry ok' m cur (cs ++ ds) l) :
    ∃ k, m = n + k ∧ Walks entry ok' k d ds l := by
  obtain ⟨i, j, e, hm, hi, hj⟩ := walks_split hall
  obtain ⟨hn, he⟩ := walks_unique h hi
  exact ⟨j, by rw [hm, hn], by rwa [he]⟩

/-- What stands at the first name. -/
theorem walks_head {c : Text} (hc : Named c) (h : Walks entry ok n cur (c :: cs) l) :
    entry (cur ++ [c]) = some .dir ∨
      ∃ t, entry (cur ++ [c]) = some (.symlink t) ∧ t ≠ [] ∧ ok cur t := by
  cases h with
  | stay hplain _ => exact absurd hplain hc.1
  | up _ _ => exact absurd rfl hc.2
  | down _ _ h => exact Or.inl (walks_start h)
  | @follow _ _ _ _ t _ _ _ hlink ht hok _ => exact Or.inr ⟨t, hlink, ht, hok⟩

/-- The way behind a symlink that is the first name. -/
theorem walks_link {c t : Text} (hc : Named c) (hlink : entry (cur ++ [c]) = some (.symlink t))
    (h : Walks entry ok n cur (c :: cs) l) :
    ∃ i d, i + 1 ≤ n ∧ Walks entry ok i (start cur t) (components t) d := by
  cases h with
  | stay hplain _ => exact absurd hplain hc.1
  | up _ _ => exact absurd rfl hc.2
  | down _ _ h =>
      rw [walks_start h] at hlink
      cases hlink
  | follow _ _ hlink' _ _ h =>
      rw [hlink] at hlink'
      cases hlink'
      obtain ⟨i, j, d, hn, hi, hj⟩ := walks_split h
      exact ⟨i, d, by omega, hi⟩

theorem dirsTo_mono (h : DirsTo entry l) (hentry : ∀ x e, entry x = some e → entry' x = some e) :
    DirsTo entry' l :=
  fun x hx => hentry x .dir (h x hx)

theorem dirsTo_prefix {x : Loc} (h : DirsTo entry l) (hx : x <+: l) : DirsTo entry x :=
  fun y hy => h y (hy.trans hx)

theorem dirsTo_snoc {c : Text} (h : DirsTo entry l) (hc : entry (l ++ [c]) = some .dir) :
    DirsTo entry (l ++ [c]) := by
  intro x hx
  cases List.prefix_concat_iff.mp hx with
  | inl heq => rwa [heq]
  | inr hpre => exact h x hpre

/-- A way that starts below directories only ends below directories only. -/
theorem walks_dirsTo (h : Walks entry ok n cur cs l) (hcur : DirsTo entry cur) :
    DirsTo entry l := by
  induction h with
  | here _ => exact hcur
  | stay _ _ ih => exact ih hcur
  | up _ _ ih =>
      apply ih
      exact dirsTo_prefix hcur (List.dropLast_prefix _)
  | down _ _ h ih => exact ih (dirsTo_snoc hcur (walks_start h))
  | follow _ _ _ _ _ _ ih =>
      apply ih
      rw [start]
      split
      · exact dirsTo_prefix hcur List.nil_prefix
      · exact hcur

theorem walks_dirs (hcs : ∀ c ∈ cs, Named c) (h : DirsTo entry (cur ++ cs)) :
    Walks entry ok 0 cur cs (cur ++ cs) := by
  induction cs generalizing cur with
  | nil =>
      rw [List.append_nil] at h ⊢
      exact .here (h cur (List.prefix_refl cur))
  | cons c cs ih =>
      have hassoc : cur ++ c :: cs = cur ++ [c] ++ cs := by simp
      have hcur := h cur (List.prefix_append _ _)
      rw [hassoc] at h ⊢
      exact .down (hcs c List.mem_cons_self) hcur
        (ih (fun c' hc' => hcs c' (List.mem_cons_of_mem c hc')) h)

end

section

variable {fs : Fs} {ok : Loc → Text → Prop} {n m : Nat} {cur d l : Loc} {c t : Text}
  {cs ds : List Text} {follow : Bool}

theorem walk_stay (hdir : fs.entry cur = some .dir) (hc : c = [] ∨ c = ['.']) :
    fs.walk follow m cur (c :: cs) = fs.walk follow m cur cs := by
  cases m with
  | zero | succ m => exact walkWith_stay hdir hc

theorem walk_up (hdir : fs.entry cur = some .dir) :
    fs.walk follow m cur (['.', '.'] :: cs) = fs.walk follow m cur.dropLast cs := by
  cases m with
  | zero | succ m => exact walkWith_up hdir

theorem walk_down (hc : Named c) (hdir : fs.entry cur = some .dir)
    (hnext : fs.entry (cur ++ [c]) = some .dir) :
    fs.walk follow m cur (c :: cs) = fs.walk follow m (cur ++ [c]) cs := by
  cases m with
  | zero | succ m => exact walkWith_down hdir hc hnext (by simp)

theorem walk_link (hc : Named c) (hdir : fs.entry cur = some .dir)
    (hlink : fs.entry (cur ++ [c]) = some (.symlink t)) (ht : t ≠ [])
    (hlast : cs = [] → follow = true) :
    fs.walk follow (m + 1) cur (c :: cs) = fs.walk follow m (start cur t) (components t ++ cs) :=
  walkWith_link hdir hc hlink hlast ht

/-- The kernel goes the way, and on from there. -/
theorem walk_through (h : Walks fs.entry ok n cur cs d) (hn : n ≤ m)
    (hlast : ds = [] → follow = true) :
    fs.walk follow m cur (cs ++ ds) = fs.walk follow (m - n) d ds := by
  induction h generalizing m with
  | here _ => rfl
  | stay hc h ih =>
      rw [List.cons_append, walk_stay (walks_start h) hc]
      exact ih hn
  | up hdir _ ih =>
      rw [List.cons_append, walk_up hdir]
      exact ih hn
  | down hc hdir h ih =>
      rw [List.cons_append, walk_down hc hdir (walks_start h)]
      exact ih hn
  | @follow n _ _ _ _ _ hc hdir hlink ht _ _ ih =>
      cases m with
      | zero => cases hn
      | succ m =>
          have hn' : n ≤ m := Nat.le_of_succ_le_succ hn
          have hend : ∀ es, es ++ ds = [] → follow = true :=
            fun es hes => hlast (List.append_eq_nil_iff.mp hes).2
          rw [List.cons_append, walk_link hc hdir hlink ht (hend _), ← List.append_assoc, ih hn',
            Nat.succ_sub_succ]

theorem walk_nil : fs.walk follow m cur [] = some cur := by
  cases m with
  | zero | succ m => rfl

theorem walk_of_walks (h : Walks fs.entry ok n cur cs l) (hn : n ≤ m) :
    fs.walk true m cur cs = some l := by
  have hwalk : fs.walk true m cur (cs ++ []) = fs.walk true (m - n) l [] :=
    walk_through h hn fun _ => rfl
  rwa [List.append_nil, walk_nil] at hwalk

theorem walks_of_walkWith {next : Loc → List Text → Option Loc} (hl : fs.entry l = some .dir)
    (hnext : ∀ cur cs, next cur cs = some l →
      ∃ n, n < m ∧ Walks fs.entry (fun _ _ => True) n cur cs l)
    (cur : Loc) (cs : List Text) (h : fs.walkWith true next cur cs = some l) :
    ∃ n, n ≤ m ∧ Walks fs.entry (fun _ _ => True) n cur cs l := by
  rw [walkWith_eq_some] at h
  induction h with
  | here => exact ⟨0, Nat.zero_le m, .here hl⟩
  | stay _ hc _ ih =>
      obtain ⟨n, hn, hway⟩ := ih hl hnext
      exact ⟨n, hn, .stay hc hway⟩
  | up hdir _ ih =>
      obtain ⟨n, hn, hway⟩ := ih hl hnext
      exact ⟨n, hn, .up hdir hway⟩
  | missing _ _ he _ | last _ _ he _ _ =>
      rw [he] at hl
      cases hl
  | link hdir hc he _ ht h =>
      obtain ⟨n, hn, hway⟩ := hnext _ _ h
      exact ⟨n + 1, hn, .follow hc hdir he ht trivial hway⟩
  | down hdir hc _ _ _ ih =>
      obtain ⟨n, hn, hway⟩ := ih hl hnext
      exact ⟨n, hn, .down hc hdir hway⟩

/-- Where the kernel comes to a directory there is a way to it. -/
theorem walks_of_walk (hl : fs.entry l = some .dir) (h : fs.walk true m cur cs = some l) :
    ∃ n, n ≤ m ∧ Walks fs.entry (fun _ _ => True) n cur cs l := by
  induction m generalizing cur cs with
  | zero => exact walks_of_walkWith hl (fun _ _ hnone => by cases hnone) cur cs h
  | succ m ih =>
      refine walks_of_walkWith hl (fun cur cs hnext => ?_) cur cs h
      obtain ⟨n, hn, hway⟩ := ih hnext
      exact ⟨n, Nat.lt_succ_of_le hn, hway⟩

theorem locate_walks {path : Text} (habs : isAbsolute path = true)
    (h : Walks fs.entry ok n [] (components path) l) (hn : n ≤ maxSymlinks) :
    fs.locate true path = some l := by
  have hne : path ≠ [] := by
    intro hnil
    rw [hnil] at habs
    cases habs
  rw [locate, if_neg hne, if_pos habs]
  exact walk_of_walks h hn

/-- What stands at the last name is found without a look behind it. -/
theorem locate_last {path : Text} (habs : isAbsolute path = true)
    (hpath : components path = cs ++ [c]) (hc : Named c) (h : Walks fs.entry ok n [] cs d)
    (hn : n ≤ maxSymlinks) : fs.locate false path = some (d ++ [c]) := by
  have hne : path ≠ [] := by
    intro hnil
    rw [hnil] at habs
    cases habs
  rw [locate, if_neg hne, if_pos habs, hpath, walk_through h hn (by simp)]
  have hlast : ∀ next, fs.walkWith false next d [c] = some (d ++ [c]) :=
    fun _ => walkWith_unfollowed (walks_end h) hc
  cases maxSymlinks - n with
  | zero | succ k => exact hlast _

end

/-- What a process sees whose root is the directory `C`. -/
def chrooted (fs : Fs) (C : Loc) : Fs where
  nodes := fs.nodes.filterMap fun node =>
    if C <+: node.1 then some (node.1.drop C.length, node.2) else none
  dirAttrs := fun x => fs.dirAttrs (C ++ x)
  inode := fs.inode
  nextIno := fs.nextIno
  cwd := []

theorem lookup_chrooted (nodes : List (Loc × Entry)) (C x : Loc) :
    (nodes.filterMap fun node =>
      if C <+: node.1 then some (node.1.drop C.length, node.2) else none).lookup x =
        nodes.lookup (C ++ x) := by
  induction nodes with
  | nil => rfl
  | cons node nodes ih =>
      obtain ⟨loc, e⟩ := node
      rw [List.lookup_cons, List.filterMap_cons]
      by_cases hloc : C <+: loc
      · obtain ⟨rest, hrest⟩ := hloc
        have hsame : (C ++ x == loc) = (x == rest) := by
          rw [← hrest, Bool.eq_iff_iff]
          simp
        rw [if_pos ⟨rest, hrest⟩, hsame, ← hrest, List.drop_left, List.lookup_cons, ih]
      · have hne : (C ++ x == loc) = false := by
          apply beq_false_of_ne
          intro heq
          exact hloc ⟨x, heq⟩
        rw [if_neg hloc, hne, ih]

theorem entry_chrooted {fs : Fs} {C : Loc} (hC : fs.entry C = some .dir) (x : Loc) :
    (fs.chrooted C).entry x = fs.entry (C ++ x) := by
  by_cases hx : x = []
  · rw [hx, List.append_nil, hC, entry_root]
  · have hne : C ++ x ≠ [] := fun h => hx (List.append_eq_nil_iff.mp h).2
    rw [entry, if_neg hx, entry, if_neg hne]
    exact lookup_chrooted fs.nodes C x

/-- From `cur` below `C` the names lead to a step that takes `C` for the root or not: a `..` in
`C` itself, or an absolute symlink that is followed. The last name is not followed. -/
inductive Leaves (fs : Fs) (C : Loc) : Loc → List Text → Prop
  | up {cs : List Text} : C ≠ [] → Leaves fs C [] (['.', '.'] :: cs)
  | link {cur : Loc} {c t : Text} {cs : List Text} : C ≠ [] → Named c → cs ≠ [] →
      fs.entry (C ++ (cur ++ [c])) = some (.symlink t) → isAbsolute t = true →
      Leaves fs C cur (c :: cs)
  | stay {cur : Loc} {c : Text} {cs : List Text} : c = [] ∨ c = ['.'] → Leaves fs C cur cs →
      Leaves fs C cur (c :: cs)
  | upper {cur : Loc} {cs : List Text} : cur ≠ [] ∨ C = [] → Leaves fs C cur.dropLast cs →
      Leaves fs C cur (['.', '.'] :: cs)
  | down {cur : Loc} {c : Text} {cs : List Text} : Named c →
      (∀ t, fs.entry (C ++ (cur ++ [c])) ≠ some (.symlink t)) → Leaves fs C (cur ++ [c]) cs →
      Leaves fs C cur (c :: cs)
  | follow {cur : Loc} {c t : Text} {cs : List Text} : Named c → cs ≠ [] →
      fs.entry (C ++ (cur ++ [c])) = some (.symlink t) → isAbsolute t = false ∨ C = [] →
      Leaves fs C (start cur t) (components t ++ cs) → Leaves fs C cur (c :: cs)

section

variable {fs : Fs} {C : Loc}

theorem dropLast_below {cur : Loc} (h : cur ≠ [] ∨ C = []) :
    (C ++ cur).dropLast = C ++ cur.dropLast := by
  rcases h with h | rfl
  · exact List.dropLast_append_of_ne_nil h
  · rfl

theorem start_below {cur : Loc} {t : Text} (h : isAbsolute t = false ∨ C = []) :
    start (C ++ cur) t = C ++ start cur t := by
  rw [start, start]
  rcases h with h | rfl
  · rw [h]
    rfl
  · rfl

/-- A walk that does not leave means the same below `C` as for a process with the root `C`. -/
theorem walkWith_rooted (hC : fs.entry C = some .dir)
    {next next' : Loc → List Text → Option Loc} {l l' : Loc}
    (hl : ∀ t, fs.entry l ≠ some (.symlink t))
    (hnext : ∀ cur cs, ¬ Leaves fs C cur cs →
      next (C ++ cur) cs = some l → next' cur cs = some l' → l = C ++ l')
    (cur : Loc) (cs : List Text) (hstays : ¬ Leaves fs C cur cs)
    (h : fs.walkWith false next (C ++ cur) cs = some l)
    (h' : (fs.chrooted C).walkWith true next' cur cs = some l') : l = C ++ l' := by
  have hentry := entry_chrooted hC
  induction cs generalizing cur with
  | nil =>
      cases h
      cases h'
      rfl
  | cons c cs ih =>
      have happend : C ++ cur ++ [c] = C ++ (cur ++ [c]) := List.append_assoc _ _ _
      cases walkWith_eq_some.mp h with
      | stay hdir hc h =>
          rw [walkWith_stay (by rwa [hentry]) hc] at h'
          exact ih cur (fun hleaves => hstays (.stay hc hleaves)) (walkWith_eq_some.mpr h) h'
      | up hdir h =>
          rw [walkWith_up (by rwa [hentry])] at h'
          have hcur : cur ≠ [] ∨ C = [] := by
            by_contra hnot
            obtain ⟨hcur, hroot⟩ := not_or.mp hnot
            rw [Classical.not_not.mp hcur] at hstays
            exact hstays (.up hroot)
          rw [dropLast_below hcur] at h
          exact ih _ (fun hleaves => hstays (.upper hcur hleaves)) (walkWith_eq_some.mpr h) h'
      | missing hdir hc he hcs =>
          rw [walkWith_missing (by rwa [hentry]) hc (by rwa [hentry, ← happend]) hcs] at h'
          cases h'
          exact happend
      | last _ _ he _ _ => exact absurd he (hl _)
      | @link _ _ _ t _ hdir hc he hlast ht h =>
          have hcs : cs ≠ [] := fun hcs => Bool.false_ne_true (hlast hcs)
          rw [happend] at he
          rw [walkWith_link (by rwa [hentry]) hc (by rwa [hentry]) (fun _ => rfl) ht] at h'
          have hmeans : isAbsolute t = false ∨ C = [] := by
            by_contra hnot
            obtain ⟨habs, hroot⟩ := not_or.mp hnot
            exact hstays (.link hroot hc hcs he (Bool.not_eq_false _ ▸ habs))
          rw [start_below hmeans] at h
          exact hnext _ _ (fun hleaves => hstays (.follow hc hcs he hmeans hleaves)) h h'
      | down hdir hc he hlink h =>
          rw [happend] at he h
          rw [walkWith_down (by rwa [hentry]) hc (by rwa [hentry]) hlink] at h'
          refine ih _ (fun hleaves => hstays (.down hc (fun t ht => ?_) hleaves))
            (walkWith_eq_some.mpr h) h'
          rw [he] at ht
          exact hlink t (Option.some.inj ht)

theorem walk_rooted (hC : fs.entry C = some .dir) {l l' : Loc}
    (hl : ∀ t, fs.entry l ≠ some (.symlink t)) (n m : Nat) (cur : Loc) (cs : List Text)
    (hstays : ¬ Leaves fs C cur cs)
    (h : fs.walk false n (C ++ cur) cs = some l)
    (h' : (fs.chrooted C).walk true m cur cs = some l') : l = C ++ l' := by
  induction n generalizing m cur cs with
  | zero =>
      cases m with
      | zero | succ m =>
          exact walkWith_rooted hC hl (fun _ _ _ hnone => by cases hnone) cur cs hstays h h'
  | succ n ih =>
      cases m with
      | zero =>
          exact walkWith_rooted hC hl (fun _ _ _ _ hnone => by cases hnone) cur cs hstays h h'
      | succ m => exact walkWith_rooted hC hl (fun cur cs => ih m cur cs) cur cs hstays h h'

/-- Within so many names and links the walk comes to its end, and takes no step that leaves. -/
def staysFor (fs : Fs) (C : Loc) : Nat → Loc → List Text → Bool
  | 0, _, _ => false
  | _ + 1, _, [] => true
  | n + 1, cur, c :: cs =>
      if c = [] ∨ c = ['.'] then staysFor fs C n cur cs
      else if c = ['.', '.'] then
        decide (cur ≠ [] ∨ C = []) && staysFor fs C n cur.dropLast cs
      else match fs.entry (C ++ (cur ++ [c])) with
        | some (.symlink t) => cs = [] ∨
            ((isAbsolute t = false ∨ C = []) ∧ staysFor fs C n (start cur t) (components t ++ cs))
        | _ => staysFor fs C n (cur ++ [c]) cs

theorem not_leaves_of_staysFor {n : Nat} {cur : Loc} {cs : List Text}
    (h : fs.staysFor C n cur cs = true) : ¬ Leaves fs C cur cs := by
  intro hleaves
  induction hleaves generalizing n with
  | up hroot =>
      cases n with
      | zero => cases h
      | succ n => simp [staysFor, hroot] at h
  | link hroot hc hcs hlink habs =>
      cases n with
      | zero => cases h
      | succ n => simp [staysFor, hc.1, hc.2, hlink, hcs, habs, hroot] at h
  | stay hc _ ih =>
      cases n with
      | zero => cases h
      | succ n =>
          rw [staysFor, if_pos hc] at h
          exact ih h
  | upper hcur _ ih =>
      cases n with
      | zero => cases h
      | succ n =>
          rw [staysFor, if_neg (by decide), if_pos rfl, Bool.and_eq_true] at h
          exact ih h.2
  | down hc hlink _ ih =>
      cases n with
      | zero => cases h
      | succ n =>
          rw [staysFor, if_neg hc.1, if_neg hc.2] at h
          split at h
          next t ht => exact hlink t ht
          next => exact ih h
  | follow hc hcs hlink _ _ ih =>
      cases n with
      | zero => cases h
      | succ n =>
          rw [staysFor, if_neg hc.1, if_neg hc.2, hlink] at h
          exact ih ((of_decide_eq_true h).resolve_left hcs).2

/-- A walk over names with more behind them comes to a directory first. -/
theorem walk_split {follow : Bool} {ta : List Text} (hta : ta ≠ []) (n : Nat) (cur : Loc)
    (cs : List Text) (l : Loc) (h : fs.walk follow n cur (cs ++ ta) = some l) :
    ∃ d, fs.walk true n cur (cs ++ [[]]) = some d ∧
      fs.entry d = some .dir ∧ ∃ k, fs.walk follow k d ta = some l := by
  have hslash : ∀ {next next' : Loc → List Text → Option Loc} {cur l : Loc},
      fs.walkWith follow next cur ta = some l → fs.walkWith true next' cur [[]] = some cur :=
    fun h => walkWith_slash.mpr ⟨rfl, walkWith_start hta h⟩
  induction n generalizing cur cs l with
  | zero =>
      refine walkWith_append
        (R := fun d l => fs.entry d = some .dir ∧ ∃ k, fs.walk follow k d ta = some l) hta
        (fun cur l h => ?_) (fun _ _ _ hnone => by cases hnone) cur cs l h
      exact ⟨cur, hslash h, walkWith_start hta h, 0, h⟩
  | succ n ih =>
      refine walkWith_append
        (R := fun d l => fs.entry d = some .dir ∧ ∃ k, fs.walk follow k d ta = some l) hta
        (fun cur l h => ?_) ih cur cs l h
      exact ⟨cur, hslash h, walkWith_start hta h, n + 1, h⟩

end

end Jailkit.Fs
