import Jailkit.Tools.Execute
import Jailkit.Tools.MoveDir

/-!
What moving a directory removes. `os.walk` follows a symlink given as its top directory,
and the directories it lists there are moved as well; so the moved directory is all that is
touched in the runs in which no directory listed elsewhere has directories of its own.
-/
namespace Jailkit.Tools

open Raising Fs

/-- A later state of a run that makes new entries below `made` only, and no symlinks. -/
def Later (made : Loc) (fs fs' : Fs) : Prop :=
  fs'.cwd = fs.cwd ∧
  (∀ x, ¬ made <+: x → fs'.entry x = fs.entry x ∨ fs'.entry x = none) ∧
  ∀ x t, fs'.entry x = some (.symlink t) → fs.entry x = some (.symlink t)

def Calm (made : Loc) (fs : Fs) : Prop :=
  ∀ x t, made <+: x → fs.entry x ≠ some (.symlink t)

variable {made home : Loc} {fs fs' fs'' : Fs}

theorem later_refl (made : Loc) (fs : Fs) : Later made fs fs :=
  ⟨rfl, fun _ _ => Or.inl rfl, fun _ _ h => h⟩

theorem later_trans (h : Later made fs fs') (h' : Later made fs' fs'') :
    Later made fs fs'' := by
  refine ⟨h'.1.trans h.1, ?_, fun x t hx => h.2.2 x t (h'.2.2 x t hx)⟩
  intro x hx
  cases h'.2.1 x hx with
  | inl hsame =>
      rw [hsame]
      exact h.2.1 x hx
  | inr hnone => exact Or.inr hnone

theorem later_same (h : SameEntries fs fs') : Later made fs fs' :=
  ⟨h.1, fun x _ => Or.inl (h.2 x), fun x t hx => by rwa [h.2 x] at hx⟩

theorem later_adds {loc : Loc} {e : Entry} (h : Adds fs fs' loc e) (hloc : made <+: loc)
    (he : ∀ t, e ≠ .symlink t) : Later made fs fs' := by
  obtain ⟨-, hcwd, hentry⟩ := h
  refine ⟨hcwd, ?_, ?_⟩
  · intro x hx
    have hne : x ≠ loc := fun heq => hx (heq ▸ hloc)
    rw [hentry, if_neg hne]
    exact Or.inl rfl
  · intro x t hx
    rw [hentry] at hx
    split at hx
    · exact absurd (Option.some.inj hx) (he t)
    · exact hx

theorem later_removeIf (p : Loc → Bool) : Later made fs (fs.removeIf p) := by
  have hsub : ∀ x, (fs.removeIf p).entry x = fs.entry x ∨ (fs.removeIf p).entry x = none := by
    intro x
    by_cases hx : x = []
    · rw [hx, entry_root, entry_root]
      exact Or.inl rfl
    · rw [entry_removeIf fs p hx]
      cases p x with
      | true => exact Or.inr rfl
      | false => exact Or.inl rfl
  refine ⟨rfl, fun x _ => hsub x, ?_⟩
  intro x t hx
  cases hsub x with
  | inl hsame => rwa [hsame] at hx
  | inr hnone =>
      rw [hnone] at hx
      cases hx

theorem calm_later (h : Calm made fs) (hl : Later made fs fs') : Calm made fs' :=
  fun x t hx he => h x t hx (hl.2.2 x t he)

theorem keepsLinks_later (hcalm : Calm made fs) (h : Later made fs fs') :
    KeepsLinks fs fs' := by
  refine ⟨h.1, fun loc target => ⟨h.2.2 loc target, ?_⟩⟩
  intro he
  have hout : ¬ made <+: loc := fun hin => hcalm loc target hin he
  rw [← he]
  exact h.2.1 loc hout

/-- Whatever happens later, the directory at this path is one of the home directory. -/
def Ours (made home : Loc) (fs : Fs) (path : Text) : Prop :=
  ∀ fs', Later made fs fs' → ∀ x, fs'.locate false path = some x →
    fs'.entry x = some .dir → home <+: x

/-- Whatever happens later, the directory at this path is one of those newly made. -/
def Fresh (made : Loc) (fs : Fs) (path : Text) : Prop :=
  path ≠ [] ∧ ∀ fs', Later made fs fs' → ∀ x, fs'.resolve true path = some x → made <+: x

theorem ours_later {path : Text} (h : Ours made home fs path) (hl : Later made fs fs') :
    Ours made home fs' path :=
  fun fs'' hl' => h fs'' (later_trans hl hl')

theorem fresh_later {path : Text} (h : Fresh made fs path) (hl : Later made fs fs') :
    Fresh made fs' path :=
  ⟨h.1, fun fs'' hl' => h.2 fs'' (later_trans hl hl')⟩

theorem fresh_locate {path name : Text} {follow : Bool} {x : Loc} (hcalm : Calm made fs)
    (h : Fresh made fs path) (hname : ValidName name)
    (hx : fs.locate follow (path ++ '/' :: name) = some x) : made <+: x := by
  obtain ⟨d, hd, hdir, hlast⟩ := locate_child h.1 hname hx
  have hmade : made <+: d ++ [name] :=
    (h.2 fs (later_refl made fs) d hd).trans (List.prefix_append d [name])
  cases hlast with
  | inl heq =>
      rw [heq]
      exact hmade
  | inr hlink =>
      obtain ⟨-, t, ht⟩ := hlink
      exact absurd ht (hcalm _ t hmade)

theorem fresh_child {path name : Text} (hcalm : Calm made fs) (h : Fresh made fs path)
    (hname : ValidName name) : Fresh made fs (path ++ '/' :: name) := by
  refine ⟨by simp, ?_⟩
  intro fs' hl x hx
  exact fresh_locate (calm_later hcalm hl) (fresh_later h hl) hname (resolve_eq_some.mp hx).1

/-- A directory outside the home directory has no directories of its own. -/
def NoneBelow (home : Loc) (fs : Fs) (path : Text) : Prop :=
  ∀ loc, fs.locate true path = some loc → ¬ home <+: loc →
    ∀ name, fs.entry (loc ++ [name]) ≠ some .dir

/-- `os.walk` lists no directory outside the home directory that has directories. -/
def WalksHome (home : Loc) (s : World) : (c : Call) → Res c → Prop
  | .scandir path, .ok _ => NoneBelow home s.fs path
  | _, _ => True

/-- A listed directory is moved as `path/name`, which stays inside the home directory. -/
theorem ours_child {path name : Text} {entries : List (Text × Bool)} (hcalm : Calm made fs)
    (hscan : ScansDir fs path (.ok entries)) (hnone : NoneBelow home fs path)
    (hmem : (name, true) ∈ entries) : ValidName name ∧ Ours made home fs (path ++ '/' :: name) := by
  obtain ⟨loc, hloc, hdir, hlists, hkind⟩ := hscan
  have hname : ValidName name :=
    ((hlists.2 name).mp (List.mem_map.mpr ⟨(name, true), hmem, rfl⟩)).1
  have hpath : path ≠ [] := by
    intro h
    rw [h] at hloc
    cases hloc
  refine ⟨hname, ?_⟩
  intro fs' hl x hx hxdir
  obtain ⟨d, hd, -, hlast⟩ := locate_child hpath hname hx
  have hd' : d = loc :=
    locate_keepsLinks (keepsLinks_later hcalm hl) hloc hd (Or.inl rfl)
  have hxloc : x = loc ++ [name] := by
    cases hlast with
    | inl heq => rw [heq, hd']
    | inr hfollow => cases hfollow.1
  subst hxloc
  by_cases hin : home <+: loc
  · exact hin.trans (List.prefix_append loc [name])
  · -- outside, the name was a symlink, and a symlink does not become a directory
    have hnot := hnone loc hloc hin name
    cases (hkind name true hmem).2 rfl with
    | inl hisdir => exact absurd hisdir hnot
    | inr hlink =>
        obtain ⟨⟨t, ht⟩, -⟩ := hlink
        have hout : ¬ made <+: loc ++ [name] := fun h => hcalm _ t h ht
        cases hl.2.1 _ hout with
        | inl hsame =>
            rw [hsame] at hxdir
            exact absurd hxdir hnot
        | inr hgone =>
            rw [hgone] at hxdir
            cases hxdir

/-- A step makes entries below `made` and removes entries of the home directory only. -/
def Keeps (made home : Loc) (fs fs' : Fs) : Prop :=
  Later made fs fs' ∧ ∀ x, (fs.entry x).isSome → fs'.entry x = none → home <+: x

theorem keeps_same (h : SameEntries fs fs') : Keeps made home fs fs' := by
  refine ⟨later_same h, ?_⟩
  intro x hx hgone
  rw [h.2] at hgone
  rw [hgone] at hx
  cases hx

theorem keeps_adds {loc : Loc} {e : Entry} (h : Adds fs fs' loc e) (hloc : made <+: loc)
    (he : ∀ t, e ≠ .symlink t) : Keeps made home fs fs' := by
  refine ⟨later_adds h hloc he, ?_⟩
  intro x hx hgone
  rw [h.2.2] at hgone
  split at hgone
  · cases hgone
  · rw [hgone] at hx
    cases hx

theorem keeps_removeIf {p : Loc → Bool} (hp : ∀ x, p x = true → home <+: x) :
    Keeps made home fs (fs.removeIf p) := by
  refine ⟨later_removeIf p, ?_⟩
  intro x hx hgone
  by_cases hroot : x = []
  · rw [hroot, entry_root] at hgone
    cases hgone
  · rw [entry_removeIf fs p hroot] at hgone
    split at hgone
    next hpx => exact hp x hpx
    next =>
      rw [hgone] at hx
      cases hx

/-- The calls that keep to the new directory and to the home directory. -/
def Minds (made home : Loc) (s : World) : Call → Prop
  | .mkdir path _ => ∀ x, s.fs.placeDir path = some x → made <+: x
  | .copyfile _ path => ∀ x, s.fs.locate true path = some x → made <+: x
  | .rmtree path => ∀ x, s.fs.locate false path = some x → s.fs.entry x = some .dir → home <+: x
  | .symlink _ _ | .link _ _ | .writeFile _ _ _ | .unlink _ | .mknod _ _ _ _ => False
  | _ => True

variable {s s' : World}

theorem keeps_of_openWrite {path content : Text} {a : Attrs}
    (h : fs.openWrite path a content = some fs')
    (hpath : ∀ x, fs.locate true path = some x → made <+: x) : Keeps made home fs fs' := by
  cases openWrite_changes h with
  | inl hsame => exact keeps_same hsame
  | inr hadds =>
      obtain ⟨loc, hloc, hadds⟩ := hadds
      exact keeps_adds hadds (hpath loc hloc) (by simp)

theorem keeps_of_posix {umask : Nat} {c : Call} {r : Res c} (h : posix umask s c r s')
    (hc : Minds made home s c) : Keeps made home s.fs s'.fs := by
  cases posix_does h with
  | inl hsame =>
      rw [hsame]
      exact keeps_same ⟨rfl, fun _ => rfl⟩
  | inr hdoes =>
      cases c with
      | mkdir path mode =>
          obtain ⟨_, _, hmk⟩ := hdoes
          obtain ⟨loc, hplace, hadds⟩ := mkdir_adds hmk
          exact keeps_adds hadds (hc loc hplace) (by simp)
      | copyfile src dst =>
          obtain ⟨_, _, _, hopen⟩ := hdoes
          exact keeps_of_openWrite hopen hc
      | utime _ _ _ | chmod _ _ => exact keeps_same (setAttrs_same hdoes)
      | chown _ _ _ =>
          obtain ⟨_, hset⟩ := hdoes
          exact keeps_same (setAttrs_same hset)
      | rmtree path =>
          obtain ⟨loc, p, hloc, hdir, hp, heq⟩ := hdoes
          rw [heq]
          exact keeps_removeIf fun x hx => (hc loc hloc hdir).trans (hp x hx)
      | symlink _ _ | link _ _ | writeFile _ _ _ | unlink _ | mknod _ _ _ _ => exact hc.elim
      | _ => exact hdoes.elim

instance : Std.Refl (fun s s' : World => Later made s.fs s'.fs) :=
  ⟨fun s => later_refl made s.fs⟩

instance : IsTrans World (fun s s' : World => Later made s.fs s'.fs) :=
  ⟨fun _ _ _ h h' => later_trans h h'⟩

/-- A run of `p` from `s` keeps to the calls of `Minds`, and a result meets `Q`. -/
abbrev Runs (umask : Nat) (made home : Loc) {α : Type} (p : Py α) (Q : α → World → Prop)
    (s : World) : Prop :=
  Along (posixWhere umask (WalksHome home)) (Minds made home)
    (fun s s' => Later made s.fs s'.fs) p Q s

variable {umask : Nat} {α β : Type}

theorem runs_mkdir {path : Text} (mode : Nat)
    (hplace : ∀ x, s.fs.placeDir path = some x → made <+: x) :
    Runs umask made home (mkdir path mode) (fun _ _ => ∃ x, s.fs.placeDir path = some x) s := by
  refine ⟨hplace, fun r s' h => ?_⟩
  have hkeeps : Keeps made home s.fs s'.fs := keeps_of_posix h.1 hplace
  have hl := hkeeps.1
  cases r with
  | error e => exact hl
  | ok u =>
      obtain ⟨_, ⟨_, -, hmk⟩, -⟩ := h.1
      obtain ⟨x, hx, -⟩ := mkdir_adds hmk
      exact ⟨hl, x, hx⟩

theorem runs_scandir (path : Text) :
    Runs umask made home (scandir path) (fun entries s' =>
      s' = s ∧ ScansDir s.fs path (.ok entries) ∧ NoneBelow home s.fs path) s := by
  refine ⟨trivial, fun r s' h => ?_⟩
  have hkeeps : Keeps made home s.fs s'.fs := keeps_of_posix h.1 trivial
  have hl := hkeeps.1
  cases r with
  | error e => exact hl
  | ok entries => exact ⟨hl, h.1.2, h.1.1, h.2⟩

theorem runs_copyfile {src dst : Text}
    (hdst : ∀ x, s.fs.locate true dst = some x → made <+: x) :
    Runs umask made home (copyfile src dst) (fun _ _ => True) s := by
  refine ⟨hdst, fun r s' h => ?_⟩
  have hkeeps : Keeps made home s.fs s'.fs := keeps_of_posix h.1 hdst
  have hl := hkeeps.1
  cases r with
  | error e => exact hl
  | ok u => exact ⟨hl, trivial⟩

theorem runs_rmtree {path : Text} (hours : Ours made home s.fs path) :
    Runs umask made home (rmtree path) (fun _ _ => True) s := by
  have hmind : Minds made home s (.rmtree path) := hours s.fs (later_refl made s.fs)
  refine ⟨hmind, fun r s' h => ?_⟩
  have hl := (keeps_of_posix h.1 hmind).1
  cases r with
  | error e => exact hl
  | ok u => exact ⟨hl, trivial⟩

def Plain : Call → Prop
  | .stat _ | .islink _ | .utime _ _ _ | .chown _ _ _ | .chmod _ _ => True
  | _ => False

theorem minds_of_plain {c : Call} (h : Plain c) (s : World) : Minds made home s c := by
  cases c with
  | stat _ | islink _ | utime _ _ _ | chown _ _ _ | chmod _ _ => exact trivial
  | _ => exact h.elim

theorem runs_plain {p : Py α} (hp : Prog.Only Plain p) :
    Runs umask made home p (fun _ _ => True) s := by
  apply along_of_only hp
  · intro s₁ c r s₂ hc hM
    have hkeeps : Keeps made home s₁.fs s₂.fs := keeps_of_posix hM.1 (minds_of_plain hc s₁)
    exact hkeeps.1
  · exact fun s₁ c hc => minds_of_plain hc s₁

theorem copyTimeAndPermissions_plain (src dst : Text) (allow_suid copy_ownership : Bool) :
    Prog.Only Plain (copyTimeAndPermissions src dst allow_suid copy_ownership) := by
  refine only_bind ⟨trivial, fun _ => trivial⟩ fun sbuf => ?_
  refine only_bind ⟨trivial, fun _ => trivial⟩ fun _ => ?_
  refine only_bind ?_ fun _ => ⟨trivial, fun _ => trivial⟩
  cases copy_ownership with
  | true => exact ⟨trivial, fun _ => trivial⟩
  | false => exact trivial

theorem copyFiles_runs (root dst : Text) (files : List Text) (s : World)
    (hcalm : Calm made s.fs) (hdst : Fresh made s.fs dst)
    (hfiles : ∀ name ∈ files, ValidName name) :
    Runs umask made home (copyFiles root dst files) (fun _ _ => True) s := by
  induction files generalizing s with
  | nil => exact along_pure true trivial
  | cons name files ih =>
      have hname := hfiles name List.mem_cons_self
      rw [copyFiles]
      apply along_bind (Q := fun _ _ => True)
      · apply along_catchOs
        · apply along_bind (runs_copyfile fun x hx => fresh_locate hcalm hdst hname hx)
          intro _ s' _ _
          apply along_bind (runs_plain (copyTimeAndPermissions_plain _ _ false true))
          exact fun _ s'' _ _ => along_pure true trivial
        · exact fun s' _ => along_pure false trivial
      · intro ok s' hl _
        cases ok with
        | true =>
            exact ih s' (calm_later hcalm hl) (fresh_later hdst hl)
              fun n hn => hfiles n (List.mem_cons_of_mem _ hn)
        | false => exact along_pure false trivial

def Movable (made home : Loc) (fs : Fs) (src dst : Text) : Prop :=
  Ours made home fs src ∧ Fresh made fs dst ∧ ∀ x, fs.placeDir dst = some x → made <+: x

theorem moveDirs_runs {move : Text → Text → Py Unit}
    (hmove : ∀ src dst s, Calm made s.fs → Movable made home s.fs src dst →
      Runs umask made home (move src dst) (fun _ _ => True) s)
    (root dst : Text) (dirs : List Text) (s : World) (hcalm : Calm made s.fs)
    (hdst : Fresh made s.fs dst)
    (hdirs : ∀ name ∈ dirs, ValidName name ∧ Ours made home s.fs (root ++ '/' :: name)) :
    Runs umask made home (moveDirs move root dst dirs) (fun _ _ => True) s := by
  induction dirs generalizing s with
  | nil => exact along_pure () trivial
  | cons name dirs ih =>
      obtain ⟨hname, hours⟩ := hdirs name List.mem_cons_self
      have hmovable : Movable made home s.fs (root ++ '/' :: name) (dst ++ '/' :: name) :=
        ⟨hours, fresh_child hcalm hdst hname,
          fun x hx => by
            rw [placeDir_child hname] at hx
            exact fresh_locate hcalm hdst hname (place_eq_some.mp hx).1⟩
      rw [moveDirs]
      apply along_bind (hmove _ _ s hcalm hmovable)
      intro _ s' hl _
      apply ih s' (calm_later hcalm hl) (fresh_later hdst hl)
      intro n hn
      obtain ⟨hvalid, hn'⟩ := hdirs n (List.mem_cons_of_mem _ hn)
      exact ⟨hvalid, ours_later hn' hl⟩

theorem walkDirs_runs {walk : Text → Py Bool}
    (hwalk : ∀ root s, Calm made s.fs → Fresh made s.fs dst →
      Runs umask made home (walk root) (fun _ _ => True) s)
    (root : Text) (dirs : List Text) (s : World) (hcalm : Calm made s.fs)
    (hdst : Fresh made s.fs dst) :
    Runs umask made home (walkDirs walk root dirs) (fun _ _ => True) s := by
  induction dirs generalizing s with
  | nil => exact along_pure true trivial
  | cons name dirs ih =>
      have hrest : ∀ (below : Bool) s', Later made s.fs s'.fs →
          Runs umask made home (if below then walkDirs walk root dirs else pure false)
            (fun _ _ => True) s' := by
        intro below s' hl
        cases below with
        | true => exact ih s' (calm_later hcalm hl) (fresh_later hdst hl)
        | false => exact along_pure false trivial
      rw [walkDirs]
      apply along_bind (runs_plain (p := islink (JkLib.osPathJoin root name))
        ⟨trivial, fun _ => trivial⟩)
      intro link s' hl _
      cases link with
      | true => exact hrest true s' hl
      | false =>
          apply along_bind (hwalk _ s' (calm_later hcalm hl) (fresh_later hdst hl))
          exact fun below s'' hl' _ => hrest below s'' (later_trans hl hl')

theorem scanned_dirs {path : Text} {entries : List (Text × Bool)} (hcalm : Calm made fs)
    (hscan : ScansDir fs path (.ok entries)) (hnone : NoneBelow home fs path) :
    ∀ name ∈ dirsOf entries, ValidName name ∧ Ours made home fs (path ++ '/' :: name) := by
  intro name hname
  obtain ⟨x, hx, hfst⟩ := List.mem_map.mp hname
  obtain ⟨hmem, hisdir⟩ := List.mem_filter.mp hx
  apply ours_child hcalm hscan hnone
  rw [← hfst, ← hisdir]
  exact hmem

theorem scanned_files {path : Text} {entries : List (Text × Bool)}
    (hscan : ScansDir fs path (.ok entries)) : ∀ name ∈ filesOf entries, ValidName name := by
  intro name hname
  obtain ⟨loc, -, -, hlists, -⟩ := hscan
  obtain ⟨x, hx, hfst⟩ := List.mem_map.mp hname
  have hmem : x ∈ entries := (List.mem_filter.mp hx).1
  exact ((hlists.2 name).mp (List.mem_map.mpr ⟨x, hmem, hfst⟩)).1

theorem walkFrom_runs {move : Text → Text → Py Unit} {dst : Text}
    (hmove : ∀ src dst s, Calm made s.fs → Movable made home s.fs src dst →
      Runs umask made home (move src dst) (fun _ _ => True) s)
    (n : Nat) (root : Text) (s : World) (hcalm : Calm made s.fs) (hdst : Fresh made s.fs dst) :
    Runs umask made home (walkFrom move dst n root) (fun _ _ => True) s := by
  induction n generalizing root s with
  | zero => exact along_raise _
  | succ n ih =>
      rw [walkFrom]
      apply along_handle (runs_scandir root)
      · intro entries s' _ hscan
        obtain ⟨heq, hentries, hnone⟩ := hscan
        rw [heq]
        apply along_bind (copyFiles_runs root dst _ s hcalm hdst (scanned_files hentries))
        intro ok s₁ hl₁ _
        cases ok with
        | false => exact along_pure false trivial
        | true =>
            have hdirs : ∀ name ∈ dirsOf entries,
                ValidName name ∧ Ours made home s₁.fs (root ++ '/' :: name) := by
              intro name hname
              obtain ⟨hvalid, hours⟩ := scanned_dirs hcalm hentries hnone name hname
              exact ⟨hvalid, ours_later hours hl₁⟩
            apply along_bind (moveDirs_runs hmove root dst _ s₁ (calm_later hcalm hl₁)
              (fresh_later hdst hl₁) hdirs)
            intro _ s₂ hl₂ _
            have hl := later_trans hl₁ hl₂
            exact walkDirs_runs ih root _ s₂ (calm_later hcalm hl) (fresh_later hdst hl)
      · exact fun _ _ _ => along_pure true trivial

theorem copyDirWith_runs {move : Text → Text → Py Unit}
    (hmove : ∀ src dst s, Calm made s.fs → Movable made home s.fs src dst →
      Runs umask made home (move src dst) (fun _ _ => True) s)
    (n : Nat) (src dst : Text) (s : World) (hcalm : Calm made s.fs)
    (hdst : ∀ x, s.fs.placeDir dst = some x → Fresh made s.fs dst ∧ made <+: x) :
    Runs umask made home (copyDirWith move n src dst) (fun _ _ => True) s := by
  have hmade : Runs umask made home
      (catchOs (do
        mkdir dst 0o777
        copyTimeAndPermissions src dst false true
        pure true) (pure false))
      (fun made' _ => made' = true → ∃ x, s.fs.placeDir dst = some x) s := by
    apply along_catchOs
    · apply along_bind (runs_mkdir 0o777 fun x hx => (hdst x hx).2)
      intro _ s' _ hplace
      apply along_bind (runs_plain (copyTimeAndPermissions_plain _ _ false true))
      exact fun _ _ _ _ => along_pure true fun _ => hplace
    · exact fun s' _ => along_pure false fun h => by cases h
  rw [copyDirWith]
  apply along_bind hmade
  intro ok s' hl hok
  cases ok with
  | false => exact along_pure false trivial
  | true =>
      obtain ⟨x, hx⟩ := hok rfl
      exact walkFrom_runs hmove n src s' (calm_later hcalm hl) (fresh_later (hdst x hx).1 hl)

theorem moveDir_runs (n : Nat) (src dst : Text) (s : World) (hcalm : Calm made s.fs)
    (hsrc : Ours made home s.fs src)
    (hdst : ∀ x, s.fs.placeDir dst = some x → Fresh made s.fs dst ∧ made <+: x) :
    Runs umask made home (moveDir n src dst) (fun _ _ => True) s := by
  induction n generalizing src dst s with
  | zero => exact along_raise _
  | succ n ih =>
      have hmove : ∀ src dst s, Calm made s.fs → Movable made home s.fs src dst →
          Runs umask made home (moveDir n src dst) (fun _ _ => True) s :=
        fun src dst s hcalm' h => ih src dst s hcalm' h.1 fun x hx => ⟨h.2.1, h.2.2 x hx⟩
      rw [moveDir]
      apply along_bind (copyDirWith_runs hmove n src dst s hcalm hdst)
      intro copied s' hl _
      cases copied with
      | false => exact along_pure () trivial
      | true =>
          apply along_catchOs (runs_rmtree (ours_later hsrc hl))
          exact fun _ _ => along_pure () trivial

theorem calm_place {path : Text} {x : Loc} (hnested : fs.Nested) (hx : fs.placeDir path = some x) :
    Calm x fs := by
  intro y t hy he
  rw [entry_below_none hnested (place_eq_some.mp hx).2 hy] at he
  cases he

theorem fresh_place {path : Text} {x : Loc} (hcalm : Calm x fs) (hx : fs.placeDir path = some x) :
    Fresh x fs path := by
  obtain ⟨hloc, hnone⟩ := place_eq_some.mp hx
  have hpath : path ≠ [] := by
    intro h
    rw [h] at hloc
    cases hloc
  refine ⟨hpath, ?_⟩
  intro fs' hl y hy
  have hy : fs'.resolve true (dirPath path) = some y := resolve_dirPath hy
  have hfollow : FollowsAs fs false true x := Or.inr ⟨rfl, fun t => by simp [hnone]⟩
  have hsame := locate_keepsLinks (keepsLinks_later hcalm hl) hloc hy hfollow
  subst hsame
  exact List.prefix_rfl

theorem ours_home {path : Text} (hcalm : Calm made fs) (hhome : fs.locate true path = some home) :
    Ours made home fs path := by
  intro fs' hl x hx hdir
  have hx' : fs'.resolve true path = some x :=
    resolve_eq_some.mpr ⟨locate_follow hx (by simp [hdir]), by rw [hdir]; rfl⟩
  have hsame := locate_keepsLinks (keepsLinks_later hcalm hl) hhome hx' (Or.inl rfl)
  subst hsame
  exact List.prefix_rfl

theorem exists_calm (fs : Fs) : ∃ made, Calm made fs := by
  -- a location deeper than every entry
  obtain ⟨n, hn⟩ : ∃ n, ∀ y ∈ fs.nodes, y.1.length ≤ n := by
    induction fs.nodes with
    | nil => exact ⟨0, fun y hy => by cases hy⟩
    | cons y nodes ih =>
        obtain ⟨n, hn⟩ := ih
        refine ⟨max y.1.length n, fun z hz => ?_⟩
        cases List.mem_cons.mp hz with
        | inl heq =>
            rw [heq]
            exact Nat.le_max_left _ _
        | inr hmem => exact (hn z hmem).trans (Nat.le_max_right _ _)
  refine ⟨List.replicate (n + 1) [], ?_⟩
  intro x t hx he
  have hlen := hx.length_le
  rw [List.length_replicate] at hlen
  have hne : x ≠ [] := by
    intro h
    rw [h] at hlen
    simp at hlen
  rw [entry, if_neg hne] at he
  obtain ⟨y, hy, hyx⟩ := (lookup_isSome_iff fs.nodes x).mp (by rw [he]; rfl)
  have hle := hn y hy
  rw [hyx] at hle
  omega

/-- In a run that lists no directory outside the home directory in which a directory stands,
every entry removed is one of the home directory. -/
theorem moveDir_removes_home {umask fuel : Nat} {srcdir dstdir : Text} {home : Loc}
    {s₀ s s' : World} {c : Call} {r : Res c} (hnested : s₀.fs.Nested)
    (hhome : s₀.fs.locate true srcdir = some home)
    (hreach : Prog.Reaches (posixWhere umask (WalksHome home)) (moveDir fuel srcdir dstdir) s₀ c s)
    (hstep : posix umask s c r s') {x : Loc} (hx : (s.fs.entry x).isSome)
    (hgone : s'.fs.entry x = none) : home <+: x := by
  have hruns : ∃ made, Runs umask made home (moveDir fuel srcdir dstdir) (fun _ _ => True) s₀ := by
    cases hplace : s₀.fs.placeDir dstdir with
    | some made =>
        have hcalm := calm_place hnested hplace
        refine ⟨made, moveDir_runs fuel srcdir dstdir s₀ hcalm (ours_home hcalm hhome) ?_⟩
        intro y hy
        rw [hplace] at hy
        cases hy
        exact ⟨fresh_place hcalm hplace, List.prefix_rfl⟩
    | none =>
        -- then the new directory is not made, and any location will do
        obtain ⟨made, hcalm⟩ := exists_calm s₀.fs
        refine ⟨made, moveDir_runs fuel srcdir dstdir s₀ hcalm (ours_home hcalm hhome) ?_⟩
        intro y hy
        rw [hplace] at hy
        cases hy
  obtain ⟨made, hruns⟩ := hruns
  exact (keeps_of_posix hstep (Prog.guard_of_reaches hruns hreach)).2 x hx hgone

/-- A run in which a directory listed outside the home directory has no directories. -/
def executeHome (umask : Nat) (home : Loc) (s : World) (c : Call) : Option (Res c × World) :=
  if listsHome c then some (execute umask s c) else none
where
  listsHome : Call → Bool
    | .scandir path => (s.fs.locate true path).all fun loc =>
        home.isPrefixOf loc || s.fs.nodes.all fun x => decide (x.1.dropLast = loc → x.2 ≠ .dir)
    | _ => true

theorem posixWhere_executeHome (umask : Nat) (home : Loc) (s : World) (c : Call) (r : Res c)
    (s' : World) (h : executeHome umask home s c = some (r, s')) :
    posixWhere umask (WalksHome home) s c r s' := by
  simp only [executeHome, Option.ite_none_right_eq_some, Option.some.injEq] at h
  obtain ⟨hlists, heq⟩ := h
  have hposix := posix_execute umask s c
  rw [heq] at hposix
  refine ⟨hposix, ?_⟩
  cases c with
  | scandir path =>
      cases r with
      | error e => exact trivial
      | ok entries =>
          intro loc hloc hout name hdir
          simp only [executeHome.listsHome, hloc, Option.all_some, Bool.or_eq_true,
            List.isPrefixOf_iff_prefix, List.all_eq_true, decide_eq_true_eq] at hlists
          cases hlists with
          | inl hin => exact hout hin
          | inr hnodes => exact hnodes _ (mem_nodes (by simp) hdir) (by simp) rfl
  | _ => exact trivial

/-- A home directory with a symlink to a directory that has one of its own. -/
def linkedHome : World :=
  worldOf 0o644 ((["home".toList, "u".toList, "mail".toList], .symlink "/data".toList) ::
    dirsAt [["home".toList], ["home".toList, "u".toList], ["data".toList],
      ["data".toList, "keep".toList], ["jail".toList]])

def isRmtree : Call → Bool
  | .rmtree _ => true
  | _ => false

def drops (x : Loc) (step : Call × World) : Bool :=
  (step.2.fs.entry x).isSome && ((execute 0o022 step.2 step.1).2.fs.entry x).isNone

theorem posix_drops {x : Loc} {c : Call} {s : World} (h : drops x (c, s) = true) :
    ∃ r s', posix 0o022 s c r s' ∧ (s.fs.entry x).isSome ∧ s'.fs.entry x = none := by
  simp only [drops, Bool.and_eq_true, Option.isNone_iff_eq_none] at h
  exact ⟨_, _, posix_execute 0o022 s c, h⟩

/-- A home directory with a symlink to a directory whose entry cannot be copied. -/
def flatHome : World :=
  worldOf 0o644 ([(["home".toList, "u".toList, "mail".toList], .symlink "/data".toList),
      (["data".toList, "old".toList], .symlink "/gone".toList)] ++
    dirsAt [["home".toList], ["home".toList, "u".toList], ["home".toList, "u".toList, "bin".toList],
      ["data".toList], ["jail".toList]])

theorem moveDir_removes_home_flatHome :
    ∃ s c, Prog.Reaches (posixWhere 0o022 (WalksHome ["home".toList, "u".toList]))
        (moveDir 9 "/home/u/".toList "/jail/u/".toList) flatHome c s ∧
      c = .rmtree "/home/u/".toList ∧
      ["home".toList, "u".toList] <+: ["home".toList, "u".toList, "mail".toList] := by
  have hrun : ((moveDir 9 "/home/u/".toList "/jail/u/".toList).drive
      (executeHome 0o022 ["home".toList, "u".toList]) (· = .rmtree "/home/u/".toList) flatHome).any
        (fun step => decide (step.1 = .rmtree "/home/u/".toList) &&
          drops ["home".toList, "u".toList, "mail".toList] step) = true := by
    decide +kernel
  obtain ⟨c, s, hreach, hcheck⟩ :=
    Prog.reaches_of_any (posixWhere_executeHome 0o022 ["home".toList, "u".toList]) hrun
  simp only [Bool.and_eq_true, decide_eq_true_eq] at hcheck
  obtain ⟨r, s', hstep, hx, hgone⟩ := posix_drops hcheck.2
  exact ⟨s, c, hreach, hcheck.1, moveDir_removes_home (nested_of_nodes (by decide +kernel))
    (by decide +kernel) hreach hstep hx hgone⟩

/-- The symlink is followed, and what is there is moved as if it were in the home directory. -/
theorem moveDir_removes_linked :
    linkedHome.fs.locate true "/home/u".toList = some ["home".toList, "u".toList] ∧
    ∃ s c r s' x, Prog.Reaches (posix 0o022) (moveDir 9 "/home/u".toList "/jail/u".toList)
        linkedHome c s ∧
      posix 0o022 s c r s' ∧ (s.fs.entry x).isSome ∧ s'.fs.entry x = none ∧
      ¬ ["home".toList, "u".toList] <+: x := by
  have hrun : ((moveDir 9 "/home/u".toList "/jail/u".toList).drive
      (fun s c => some (execute 0o022 s c)) isRmtree linkedHome).any
        (drops ["data".toList, "keep".toList]) = true := by
    decide +kernel
  obtain ⟨c, s, hreach, hcheck⟩ := Prog.reaches_of_any (posix_of_execute 0o022) hrun
  obtain ⟨r, s', hstep, hx, hgone⟩ := posix_drops hcheck
  refine ⟨by decide +kernel, s, c, r, s', _, hreach, hstep, hx, hgone, by decide +kernel⟩

end Jailkit.Tools
