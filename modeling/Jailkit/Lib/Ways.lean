import Jailkit.Lib.Locating

/-!
What later states of a file system keep of the ways through it. Where directories and
symlinks stay, a path leads where it led; where entries are only added, so does every
path to something that exists.
-/
namespace Jailkit.Fs

/-- Directories and symlinks stay what they are. -/
structure KeepsWays (fs fs' : Fs) : Prop where
  cwd : fs'.cwd = fs.cwd
  dir : ∀ x, fs.entry x = some .dir → fs'.entry x = some .dir
  symlink : ∀ x t, fs.entry x = some (.symlink t) → fs'.entry x = some (.symlink t)

/-- Entries are added, and none is removed or replaced. -/
structure Grows (fs fs' : Fs) : Prop where
  cwd : fs'.cwd = fs.cwd
  entry : ∀ x e, fs.entry x = some e → fs'.entry x = some e

variable {fs fs' fs'' : Fs}

theorem keepsWays_refl (fs : Fs) : KeepsWays fs fs := ⟨rfl, fun _ h => h, fun _ _ h => h⟩

theorem keepsWays_trans (h : KeepsWays fs fs') (h' : KeepsWays fs' fs'') : KeepsWays fs fs'' :=
  ⟨h'.cwd.trans h.cwd, fun x hx => h'.dir x (h.dir x hx),
    fun x t hx => h'.symlink x t (h.symlink x t hx)⟩

theorem grows_refl (fs : Fs) : Grows fs fs := ⟨rfl, fun _ _ h => h⟩

theorem grows_trans (h : Grows fs fs') (h' : Grows fs' fs'') : Grows fs fs'' :=
  ⟨h'.cwd.trans h.cwd, fun x e hx => h'.entry x e (h.entry x e hx)⟩

theorem keepsWays_of_grows (h : Grows fs fs') : KeepsWays fs fs' :=
  ⟨h.cwd, fun x => h.entry x .dir, fun x t => h.entry x (.symlink t)⟩

theorem grows_same (h : SameEntries fs fs') : Grows fs fs' :=
  ⟨h.1, fun x e hx => by rwa [h.2]⟩

theorem grows_adds {loc : Loc} {e : Entry} (h : Adds fs fs' loc e) : Grows fs fs' := by
  obtain ⟨hnone, hcwd, hentry⟩ := h
  refine ⟨hcwd, fun x e' hx => ?_⟩
  have hne : x ≠ loc := by
    intro heq
    rw [heq, hnone] at hx
    cases hx
  rwa [hentry, if_neg hne]

theorem symlink_adds {target path : Text} (h : fs.symlink target path = some fs') :
    ∃ loc, fs.place path = some loc ∧ Adds fs fs' loc (.symlink target) := by
  obtain ⟨loc, hplace, rfl⟩ := symlink_eq_some h
  exact ⟨loc, hplace, adds_insert (place_eq_some.mp hplace).2 _⟩

theorem link_adds {src dst : Text} (h : fs.link src dst = some fs') :
    ∃ loc e, fs.place dst = some loc ∧ Adds fs fs' loc e := by
  obtain ⟨loc, e, hplace, -, -, rfl⟩ := link_eq_some h
  exact ⟨loc, e, hplace, adds_insert (place_eq_some.mp hplace).2 _⟩

theorem mknod_adds {path : Text} {kind : FileKind} {a : Attrs} {rdev : Nat}
    (h : fs.mknod path kind a rdev = some fs') :
    ∃ loc, fs.place path = some loc ∧ Adds fs fs' loc (.file fs.nextIno) := by
  obtain ⟨loc, hplace, rfl⟩ := mknod_eq_some h
  exact ⟨loc, hplace, adds_insert (place_eq_some.mp hplace).2 _⟩

theorem grows_openWrite {path content : Text} {a : Attrs}
    (h : fs.openWrite path a content = some fs') : Grows fs fs' := by
  cases openWrite_changes h with
  | inl hsame => exact grows_same hsame
  | inr hadds =>
      obtain ⟨loc, -, hadds⟩ := hadds
      exact grows_adds hadds

/-- A removed entry that was no symlink was on the way to nothing else. -/
theorem unlink_keepsWays {path : Text} (h : fs.unlink path = some fs')
    (hlink : ∀ loc t, fs.locate false path = some loc → fs.entry loc ≠ some (.symlink t)) :
    KeepsWays fs fs' := by
  obtain ⟨loc, hloc, -, hdir, hfs⟩ := unlink_eq_some h
  subst hfs
  refine ⟨rfl, fun x hx => ?_, fun x t hx => ?_⟩
  · have hne : x ≠ loc := fun heq => hdir (heq ▸ hx)
    rwa [entry_unlinked hdir, if_neg hne]
  · have hne : x ≠ loc := fun heq => hlink loc t hloc (heq ▸ hx)
    rwa [entry_unlinked hdir, if_neg hne]

/-- A walk goes through directories and symlinks only, whatever it ends at. -/
theorem walkWith_keepsWays (h : KeepsWays fs fs') {follow : Bool}
    {next next' : Loc → List Text → Option Loc}
    (hnext : ∀ cur cs l, next cur cs = some l → fs'.entry l = fs.entry l →
      next' cur cs = some l)
    (cur : Loc) (cs : List Text) (l : Loc) (hl : fs.walkWith follow next cur cs = some l)
    (hend : fs'.entry l = fs.entry l) : fs'.walkWith follow next' cur cs = some l := by
  rw [walkWith_eq_some] at hl ⊢
  induction hl with
  | here => exact .here
  | stay hdir hc _ ih => exact .stay (h.dir _ hdir) hc (ih hend)
  | up hdir _ ih => exact .up (h.dir _ hdir) (ih hend)
  | missing hdir hc he hcs => exact .missing (h.dir _ hdir) hc (hend.trans he) hcs
  | last hdir hc he hcs hfollow =>
      exact .last (h.dir _ hdir) hc (h.symlink _ _ he) hcs hfollow
  | link hdir hc he hlast ht hl =>
      exact .link (h.dir _ hdir) hc (h.symlink _ _ he) hlast ht (hnext _ _ _ hl hend)
  | @down cur l c e cs hdir hc he hlink hl ih =>
      cases cs with
      | nil =>
          -- a file is where the walk ends
          cases hl
          exact .down (h.dir _ hdir) hc (hend.trans he) hlink .here
      | cons c' cs =>
          have hnext := walkWith_start (List.cons_ne_nil c' cs) (walkWith_eq_some.mpr hl)
          exact .down (h.dir _ hdir) hc (h.dir _ hnext) (by simp) (ih hend)

theorem walk_keepsWays (h : KeepsWays fs fs') {follow : Bool} (n : Nat) (cur : Loc)
    (cs : List Text) (l : Loc) (hl : fs.walk follow n cur cs = some l)
    (hend : fs'.entry l = fs.entry l) : fs'.walk follow n cur cs = some l := by
  induction n generalizing cur cs l with
  | zero => exact walkWith_keepsWays h (fun _ _ _ hnone => by cases hnone) cur cs l hl hend
  | succ n ih => exact walkWith_keepsWays h ih cur cs l hl hend

theorem locate_keepsWays (h : KeepsWays fs fs') {follow : Bool} {path : Text} {l : Loc}
    (hl : fs.locate follow path = some l) (hend : fs'.entry l = fs.entry l) :
    fs'.locate follow path = some l := by
  rw [locate_eq_some, h.cwd]
  rw [locate_eq_some] at hl
  exact ⟨hl.1, walk_keepsWays h _ _ _ l hl.2 hend⟩

theorem resolve_grows (h : Grows fs fs') {follow : Bool} {path : Text} {l : Loc}
    (hl : fs.resolve follow path = some l) : fs'.resolve follow path = some l := by
  obtain ⟨hloc, hsome⟩ := resolve_eq_some.mp hl
  obtain ⟨e, he⟩ := Option.isSome_iff_exists.mp hsome
  have he' := h.entry l e he
  have hloc' := locate_keepsWays (keepsWays_of_grows h) hloc (he'.trans he.symm)
  exact resolve_eq_some.mpr ⟨hloc', by rw [he']; rfl⟩

/-- Where a path leads, it leads up to a last symlink that is not followed. -/
def Unfollowed (fs : Fs) (l l₀ : Loc) : Prop := l₀ = l ∨ ∃ t, fs.entry l₀ = some (.symlink t)

theorem walkWith_unfollow {next next' : Loc → List Text → Option Loc} {l : Loc}
    (hnext : ∀ cur cs, next cur cs = some l →
      ∃ l₀, next' cur cs = some l₀ ∧ fs.Unfollowed l l₀)
    (cur : Loc) (cs : List Text) (hl : fs.walkWith true next cur cs = some l) :
    ∃ l₀, fs.walkWith false next' cur cs = some l₀ ∧ fs.Unfollowed l l₀ := by
  rw [walkWith_eq_some] at hl
  induction hl with
  | here => exact ⟨_, rfl, Or.inl rfl⟩
  | stay hdir hc _ ih =>
      rw [walkWith_stay hdir hc]
      exact ih hnext
  | up hdir _ ih =>
      rw [walkWith_up hdir]
      exact ih hnext
  | missing hdir hc he hcs => exact ⟨_, walkWith_missing hdir hc he hcs, Or.inl rfl⟩
  | last _ _ _ _ hfollow => cases hfollow
  | @link cur l c t cs hdir hc he _ ht hl =>
      by_cases hcs : cs = []
      · rw [hcs]
        exact ⟨_, walkWith_unfollowed hdir hc, Or.inr ⟨t, he⟩⟩
      · rw [walkWith_link hdir hc he (fun hnil => absurd hnil hcs) ht]
        exact hnext _ _ hl
  | down hdir hc he hlink _ ih =>
      rw [walkWith_down hdir hc he hlink]
      exact ih hnext

theorem walk_unfollow (n : Nat) (cur : Loc) (cs : List Text) {l : Loc}
    (hl : fs.walk true n cur cs = some l) :
    ∃ l₀, fs.walk false n cur cs = some l₀ ∧ fs.Unfollowed l l₀ := by
  induction n generalizing cur cs with
  | zero => exact walkWith_unfollow (fun _ _ hnone => by cases hnone) cur cs hl
  | succ n ih => exact walkWith_unfollow ih cur cs hl

/-- A path that leads to no symlink leads there without following one at its end. -/
theorem locate_unfollow {path : Text} {l : Loc} (hl : fs.locate true path = some l)
    (hlink : ∀ l₀ t, fs.locate false path = some l₀ → fs.entry l₀ ≠ some (.symlink t)) :
    fs.locate false path = some l := by
  obtain ⟨hpath, hwalk⟩ := locate_eq_some.mp hl
  obtain ⟨l₀, hl₀, hsame⟩ := walk_unfollow _ _ _ hwalk
  have hloc : fs.locate false path = some l₀ := locate_eq_some.mpr ⟨hpath, hl₀⟩
  cases hsame with
  | inl heq => rwa [heq] at hloc
  | inr hsym =>
      obtain ⟨t, ht⟩ := hsym
      exact absurd ht (hlink l₀ t hloc)

end Jailkit.Fs
