import Jailkit.Tools.Containment
import Jailkit.Tools.Suid

/-!
`copy_binaries_and_libs` acts in the jail, with the calls of itself that it makes for what
symlinks lead to, for the files of a directory and for libraries.
-/
namespace Jailkit.Tools

open JkLib Raising
open Fs (isAbsolute components)

section

variable {α : Type} {umask : Nat} {chroot : Text} {C : Loc} {fs fs' : Fs} {s s' : World}

theorem stays_of_sees {p : Py α} {Q : α → World → Prop} (h : Sees umask chroot p Q s) :
    Stays umask chroot p Q s := stays_of_makes (makes_of_sees h)

/-- A source path that has been looked at is a name below the root. -/
theorem cachedlstat_source (file : Text) (s : World) :
    Sees umask chroot (cachedlstat .source file)
      (fun _ _ => names chroot <+: names (chroot ++ '/' :: file)) s := by
  have hget : Sees umask chroot (cacheGet .source file)
      (fun _ _ => names chroot <+: names (chroot ++ '/' :: file)) s :=
    sees_lift (c := .cacheGet .source file) trivial fun _ _ hM _ => hM.2
  apply along_bind hget
  intro found s₁ _ hfile
  cases found with
  | some ret => exact along_pure ret hfile
  | none =>
      apply along_bind (lstat_sees .source file s₁)
      intro ret s₂ _ _
      have hset : Sees umask chroot (cacheSet file ret) (fun _ _ => True) s₂ :=
        sees_lift (c := .cacheSet file ret) trivial fun _ _ _ _ => trivial
      apply along_bind hset
      intro _ s₃ _ _
      exact along_pure ret hfile

/-- What a recursive call of `copy_binaries_and_libs` is relied on for. -/
def CopiesInside (umask : Nat) (chroot : Text) (copyFiles : CopyFiles) : Prop :=
  ∀ files o glob ref s, Rooted s.fs chroot →
    Stays umask chroot (copyFiles files o glob ref) (fun _ _ => True) s

theorem copyEntries_stays {recur : Text → Nat → Py Nat} {o : CopyOptions} (fuel : Nat)
    (dir : Text) (hrecur : ∀ dir ref s, Rooted s.fs chroot →
      Stays umask chroot (recur dir ref) (fun _ _ => True) s)
    (entries files2 : List Text) (ref : Nat) (s : World) (hroot : Rooted s.fs chroot) :
    Stays umask chroot (copyEntries recur fuel chroot dir o entries files2 ref)
      (fun _ _ => True) s := by
  induction entries generalizing files2 ref s with
  | nil => exact along_pure _ trivial
  | cons entry entries ih =>
      rw [copyEntries]
      apply along_bind (Q := fun _ _ => True)
      · apply along_exceptOs
        · apply along_bind (stays_of_sees (cachedlstat_source (osPathJoin dir entry) s))
          intro sbuf s₁ hs₁ _
          have hroot₁ := rooted_keeps hroot hs₁
          split
          · apply along_bind (stays_of_makes (createParentPath_makes fuel _ _ s₁ hroot₁))
            intro _ s₂ hs₂ _
            apply along_bind (hrecur _ ref s₂ (rooted_keeps hroot₁ hs₂))
            intro ref' s₃ _ _
            exact along_pure _ trivial
          · exact along_pure _ trivial
        · intro e s' _
          split
          · exact along_raise _
          · exact along_pure _ trivial
      · intro next s' hs' _
        exact ih next.1 next.2 s' (rooted_keeps hroot hs')

section

variable {copyFiles : CopyFiles} {o : CopyOptions} (hcopy : CopiesInside umask chroot copyFiles)

include hcopy

theorem copyDirRecursive_stays (fuel n : Nat) (dir : Text) (ref : Nat) (s : World)
    (hroot : Rooted s.fs chroot) :
    Stays umask chroot (copyDirRecursive copyFiles fuel chroot o n dir ref) (fun _ _ => True) s := by
  induction n generalizing dir ref s with
  | zero => exact along_raise _
  | succ n ih =>
      rw [copyDirRecursive]
      have hlist : Stays umask chroot (listdir dir) (fun _ _ => True) s :=
        stays_looks ⟨trivial, fun _ => trivial⟩
      apply along_bind hlist
      intro entries s₁ hs₁ _
      have hroot₁ := rooted_keeps hroot hs₁
      apply along_bind (copyEntries_stays fuel dir ih entries [] ref s₁ hroot₁)
      intro next s₂ hs₂ _
      exact hcopy _ _ _ _ s₂ (rooted_keeps hroot₁ hs₂)

theorem copySymlink_stays (file : Text) {ret b : Text} (ref : Nat) (s : World)
    (hroot : Rooted s.fs chroot) (h : Target (names chroot) s.fs ret b) :
    Stays umask chroot (copySymlink copyFiles o file (osPathJoin ret b) ref)
      (fun _ _ => True) s := by
  have hread : Sees umask chroot (readlink .source file) (fun _ _ => True) s :=
    sees_looks ⟨trivial, fun _ => trivial⟩
  apply along_bind (stays_of_sees (along_related hread))
  intro realfile s₁ hs₁ hsame
  have hfs : s₁.fs = s.fs := hsame.1
  rw [← hfs] at h hroot
  have hsym : Stays umask chroot (symlink realfile (osPathJoin ret b)) (fun _ _ => True) s₁ :=
    stays_of_makes (symlink_makes realfile s₁ (within_of_target h))
  apply along_bind (along_exceptOs hsym fun _ _ _ => along_pure () trivial)
  intro _ s₂ hs₂ _
  have hroot₂ := rooted_keeps hroot hs₂
  have happend : Stays umask chroot (listAppend ref file) (fun _ _ => True) s₂ :=
    stays_looks ⟨trivial, fun _ => trivial⟩
  apply along_bind happend
  intro _ s₃ hs₃ _
  have hroot₃ := rooted_keeps hroot₂ hs₃
  split
  · exact along_raise _
  · split
    · exact hcopy _ _ _ _ s₃ hroot₃
    · exact hcopy _ _ _ _ s₃ hroot₃

theorem copyByFormat_stays (fuel : Nat) {file : Text} {ret b : Text} (sb : StatBuf) (ref : Nat)
    (hC : names chroot ≠ []) (habs : isAbsolute file = true)
    (hfile : names chroot <+: names (chroot ++ '/' :: file)) (s : World)
    (hroot : Rooted s.fs chroot) (h : Target (names chroot) s.fs ret b) :
    Stays umask chroot (copyByFormat copyFiles fuel chroot o file (osPathJoin ret b) sb ref)
      (fun _ _ => True) s := by
  have hdevice : Stays umask chroot (do
      copyDevice fuel chroot file o.retain_owner
      pure ref) (fun _ _ => True) s := by
    apply along_bind (stays_of_makes (copyDevice_makes fuel o.retain_owner hC habs hfile s hroot))
    intro _ s₁ _ _
    exact along_pure ref trivial
  rw [copyByFormat]
  split
  · exact copySymlink_stays hcopy file ref s hroot h
  · exact copyDirRecursive_stays hcopy fuel fuel file ref s hroot
  · apply along_bind (stays_of_makes (copyWithPermissions_makes file _ _ _ s h))
    intro _ s₁ _ _
    exact stays_looks (only_bind ⟨trivial, fun _ => trivial⟩ fun _ => trivial)
  · exact hdevice
  · exact hdevice
  · exact along_pure _ trivial

theorem copyLibs_stays (file : Text) (sb : StatBuf) (ref : Nat) (s : World)
    (hroot : Rooted s.fs chroot) :
    Stays umask chroot (copyLibs copyFiles o file sb ref) (fun _ _ => True) s := by
  rw [copyLibs]
  split
  · have hldd : Stays umask chroot (lddlistLibraries file) (fun _ _ => True) s :=
      stays_looks ⟨trivial, fun _ => trivial⟩
    apply along_bind hldd
    intro libs s₁ hs₁ _
    exact hcopy _ _ _ _ s₁ (rooted_keeps hroot hs₁)
  · exact along_pure _ trivial

theorem copyMatching_stays (glob_ : Bool) (file : Text) (errno ref : Nat) (s : World)
    (hroot : Rooted s.fs chroot) :
    Stays umask chroot (copyMatching copyFiles o glob_ file errno ref) (fun _ _ => True) s := by
  rw [copyMatching]
  split
  · have hglob : Stays umask chroot (glob file) (fun _ _ => True) s :=
      stays_looks ⟨trivial, fun _ => trivial⟩
    apply along_bind hglob
    intro ret s₁ hs₁ _
    split
    · exact hcopy _ _ _ _ s₁ (rooted_keeps hroot hs₁)
    · exact along_pure _ trivial
  · exact along_pure _ trivial

theorem copyFound_stays (fuel : Nat) {file : Text} (sb : StatBuf) (dest : Dest) (ref : Nat)
    (hC : names chroot ≠ []) (hfile : names chroot <+: names (chroot ++ '/' :: file)) (s : World)
    (hroot : Rooted s.fs chroot) :
    Stays umask chroot (copyFound copyFiles fuel chroot o file sb dest ref) (fun _ _ => True) s := by
  rw [copyFound]
  apply along_bind (stays_of_makes (createParentPath_makes fuel _ (dirname file) s hroot))
  intro _ s₁ hs₁ hparent
  have hroot₁ := rooted_keeps hroot hs₁
  have habs : isAbsolute file = true :=
    decide_eq_true (dirname_head (of_decide_eq_true hparent.1))
  have hplace : names chroot <+: names (normpath (chroot ++ '/' :: file)) := by
    obtain ⟨c, rest, hc⟩ := List.exists_cons_of_ne_nil (ne_nil_of_absolute hroot.absolute)
    have habsolute := hroot.absolute
    rw [hc] at habsolute
    rwa [names_normpath (by rw [hc]; exact habsolute)]
  apply along_bind (stays_of_sees (resolveRealpath_places hC hplace s₁))
  intro chrootrfile s₂ hs₂ hplaces
  obtain ⟨ret, b, rfl, htarget⟩ := hplaces
  apply along_bind (stays_of_sees (along_related (sees_looks (lookAtDest_looks dest _))))
  intro dest s₃ hs₃ hsame
  have hroot₃ := rooted_keeps (rooted_keeps hroot₁ hs₂) hs₃
  have hfs : s₃.fs = s₂.fs := hsame.1
  rw [← hfs] at htarget
  cases dest with
  | none => exact along_raise _
  | some chrootsb =>
      dsimp only
      split
      · exact along_pure _ trivial
      · apply along_bind (deleteDest_stays o chrootsb s₃ htarget)
        intro _ s₄ hs₄ htarget₄
        have hroot₄ := rooted_keeps hroot₃ hs₄
        apply along_bind (stays_of_makes
          (along_related (createParentPath_makes fuel _ (dirname file) s₄ hroot₄)))
        intro _ s₅ hs₅ hgrows
        have hroot₅ := rooted_keeps hroot₄ hs₅
        have htarget₅ := target_grows htarget₄ hgrows.1
        apply along_bind (copyByFormat_stays hcopy fuel sb ref hC habs hfile s₅ hroot₅ htarget₅)
        intro ref s₆ hs₆ _
        apply along_bind (copyLibs_stays hcopy file sb ref s₆ (rooted_keeps hroot₅ hs₆))
        intro ref s₇ _ _
        exact along_pure _ trivial

theorem copyOne_stays (fuel : Nat) (glob_ : Bool) (file : Text) (dest : Dest) (ref : Nat)
    (hC : names chroot ≠ []) (s : World) (hroot : Rooted s.fs chroot) :
    Stays umask chroot (copyOne copyFiles fuel chroot o glob_ file dest ref)
      (fun _ _ => True) s := by
  rw [copyOne]
  have hcontains : Stays umask chroot (listContains ref file) (fun _ _ => True) s :=
    stays_looks ⟨trivial, fun _ => trivial⟩
  apply along_bind hcontains
  intro handled s₁ hs₁ _
  have hroot₁ := rooted_keeps hroot hs₁
  split
  · exact along_pure _ trivial
  · apply along_handle (stays_of_sees (cachedlstat_source file s₁))
    · intro sb s₂ hs₂ hfile
      exact copyFound_stays hcopy fuel sb dest ref hC hfile s₂ (rooted_keeps hroot₁ hs₂)
    · intro e s₂ hs₂
      cases e with
      | osError errno =>
          have hroot₂ := rooted_keeps hroot₁ hs₂
          apply along_bind (copyMatching_stays hcopy glob_ file errno ref s₂ hroot₂)
          intro ref s₃ _ _
          exact along_pure _ trivial
      | osErrorText | outsideJail | valueError | nameError | typeError | indexError
      | unboundLocal | memoryError | recursionError => exact along_raise _

theorem copyLoop_stays (fuel : Nat) (glob_ : Bool) (files : List Text) (dest : Dest) (ref : Nat)
    (hC : names chroot ≠ []) (s : World) (hroot : Rooted s.fs chroot) :
    Stays umask chroot (copyLoop copyFiles fuel chroot o glob_ files dest ref)
      (fun _ _ => True) s := by
  induction files generalizing dest ref s with
  | nil => exact along_pure ref trivial
  | cons file files ih =>
      rw [copyLoop]
      apply along_bind (copyOne_stays hcopy fuel glob_ file dest ref hC s hroot)
      intro next s₁ hs₁ _
      exact ih next.1 next.2 s₁ (rooted_keeps hroot hs₁)

end

/-- One slash more at the end of the jail's path is no other path. -/
theorem normpath_double {a b : Text} (ha : isAbsolute a = true) (hnames : names a ≠ []) :
    normpath (a ++ '/' :: '/' :: b) = normpath (a ++ '/' :: b) := by
  have hinitial : initialSlashes (a ++ '/' :: '/' :: b) = initialSlashes (a ++ '/' :: b) := by
    cases a with
    | nil => cases ha
    | cons x a =>
        have hx : x = '/' := by simpa [isAbsolute] using ha
        rw [hx] at hnames
        cases a with
        | nil => exact absurd rfl hnames
        | cons y a =>
            cases a with
            | nil =>
                have hy : y ≠ '/' := fun h => hnames (by rw [h]; rfl)
                simp [initialSlashes, hy]
            | cons z a => simp [initialSlashes]
  have habs : ∀ t, isAbsolute (a ++ t) = true := by
    cases a with
    | nil => cases ha
    | cons x a => exact fun _ => ha
  have hempty : components ('/' :: b) = [] :: components b := components_slash [] b
  have hcomps : (components (a ++ '/' :: '/' :: b)).foldl (normStep true) [] =
      (components (a ++ '/' :: b)).foldl (normStep true) [] := by
    rw [components_slash, components_slash, hempty, List.foldl_append, List.foldl_append,
      List.foldl_cons, normStep, if_pos (Or.inl rfl)]
  have hne : ∀ t, a ++ '/' :: t ≠ [] := by simp
  rw [normpath, normpath, if_neg (hne _), if_neg (hne _), habs, habs, hcomps, hinitial]

theorem names_stripLast (chroot : Text) : names (stripLast chroot) = names chroot := by
  rw [stripLast]
  split
  next hlast =>
    obtain ⟨t, rfl⟩ := eq_snoc_slash hlast
    rw [List.dropLast_concat, names_slash]
    rfl
  next => rfl

theorem landing_stripLast (habs : isAbsolute chroot = true) (hC : names chroot ≠ [])
    (ret realpath : Text) : landing (stripLast chroot) ret realpath = landing chroot ret realpath := by
  by_cases hlast : chroot.getLast? = some '/'
  · obtain ⟨t, rfl⟩ := eq_snoc_slash hlast
    have hnames := names_stripLast (t ++ ['/'])
    rw [stripLast, if_pos hlast, List.dropLast_concat] at hnames ⊢
    rw [← hnames] at hC
    rw [landing, landing]
    split
    next hhead =>
      cases realpath with
      | nil => cases hhead
      | cons c realpath =>
          have hc : c = '/' := Option.some.inj hhead
          have ht : isAbsolute t = true := by
            cases t with
            | nil => exact absurd rfl hC
            | cons x t => exact habs
          rw [hc, List.append_assoc]
          exact (normpath_double ht hC).symm
    next => rfl
  · rw [stripLast, if_neg hlast]

/-- A run for the stripped path is a run for the path. -/
theorem safeStep_stripLast (habs : isAbsolute chroot = true) (hC : names chroot ≠ []) :
    SafeStep umask (stripLast chroot) = SafeStep umask chroot := by
  have hsafe : JailSafe (stripLast chroot) = JailSafe chroot := by
    funext s c r
    cases c with
    | cacheGet use path =>
        cases use with
        | source => simp only [JailSafe, names_slash, names_stripLast]
        | dest => rfl
        | parent | walk _ =>
            cases r with
            | none | some buf => rfl
    | lstat use path =>
        cases use with
        | parent =>
            cases r with
            | ok _ | error _ => rfl
        | source | dest | walk _ => rfl
    | readlink use path =>
        cases use with
        | walk include_file =>
            cases r with
            | error e => rfl
            | ok realpath =>
                simp only [JailSafe, FollowsInside, names_stripLast, landing_stripLast habs hC]
        | source | dest | parent => rfl
    | writeFile path kept text => simp only [JailSafe, names_stripLast]
    | _ => rfl
  rw [SafeStep, hsafe]

theorem rooted_stripLast (hC : names chroot ≠ []) (h : Rooted fs chroot) :
    Rooted fs (stripLast chroot) := by
  by_cases hlast : chroot.getLast? = some '/'
  · obtain ⟨t, rfl⟩ := eq_snoc_slash hlast
    have hnames := names_stripLast (t ++ ['/'])
    obtain ⟨habs, hlocated, hdir⟩ := h
    rw [stripLast, if_pos hlast, List.dropLast_concat] at hnames ⊢
    rw [← hnames] at hC hlocated hdir
    cases t with
    | nil => exact absurd rfl hC
    | cons x t => exact ⟨habs, (Fs.locate_slash (by simp) hlocated).1, hdir⟩
  · rwa [stripLast, if_neg hlast]

/-- A run in the jail without the slash at its end. -/
theorem stays_stripLast {p : Py α} {Q : α → World → Prop} (habs : isAbsolute chroot = true)
    (hC : names chroot ≠ []) (h : Stays umask (stripLast chroot) p Q s) :
    Stays umask chroot p Q s := by
  have hguard : Guarded umask (stripLast chroot) = Guarded umask chroot := by
    funext s c
    rw [Guarded, Guarded, safeStep_stripLast habs hC, names_stripLast]
  rwa [Stays, safeStep_stripLast habs hC, hguard] at h

theorem copyBinariesAndLibs_stays (n : Nat) (hC : names chroot ≠ []) :
    CopiesInside umask chroot (copyBinariesAndLibs n chroot) := by
  induction n generalizing chroot with
  | zero => exact fun _ _ _ _ _ _ => along_raise _
  | succ n ih =>
      intro files o glob_ ref s hroot
      rw [copyBinariesAndLibs]
      split
      · exact along_raise _
      · have hstrip : names (stripLast chroot) ≠ [] := by rwa [names_stripLast]
        exact stays_stripLast hroot.absolute hC (copyLoop_stays (o := o) (ih hstrip) n glob_
          files none ref hstrip s (rooted_stripLast hC hroot))

/-- In a run in which the code gets what it relies on, each call of `create_parent_path` and
of `copy_binaries_and_libs` acts at the jail's location or below. -/
theorem copies_act_inside {umask n : Nat} {chroot : Text} {s₀ s s' : World} {c : Call} {r : Res c}
    (hroot : Rooted s₀.fs chroot)
    (h : (∃ path o, Prog.Reaches (SafeStep umask chroot) (createParentPath n chroot path o) s₀ c s) ∨
      ∃ files o try_glob_matching handledfiles, Prog.Reaches (SafeStep umask chroot)
        (copyBinariesAndLibs n chroot files o try_glob_matching handledfiles) s₀ c s)
    (hstep : SafeStep umask chroot s c r s') : ActsInside (names chroot) s c := by
  cases h with
  | inl hparent =>
      obtain ⟨path, o, hreach⟩ := hparent
      have hruns : Makes umask chroot (createParentPath n chroot path o)
          (fun found s' => isAbsolute path = true ∧ Usable (names chroot) s'.fs found) s₀ :=
        createParentPath_makes n o path s₀ hroot
      exact Prog.guard_of_reaches hruns hreach r s' hstep
  | inr hcopy =>
      obtain ⟨files, o, glob_, ref, hreach⟩ := hcopy
      by_cases hC : names chroot = []
      · rw [hC]
        cases c with
        | mkdir _ _ | symlink _ _ | link _ _ | mknod _ _ _ _ | unlink _ | rmtree _
        | copyfile _ _ | writeFile _ _ _ | utime _ _ _ | chown _ _ _ | chmod _ _ =>
            exact fun _ _ => List.nil_prefix
        | _ => exact trivial
      · have hruns : CopiesInside umask chroot (copyBinariesAndLibs n chroot) :=
          copyBinariesAndLibs_stays n hC
        exact Prog.guard_of_reaches (hruns files o glob_ ref s₀ hroot) hreach r s' hstep

end

def notLink : Option Entry → Bool
  | some (.symlink _) => false
  | _ => true

instance (fs : Fs) (path : Text) : Decidable (NoLinkAt fs path) :=
  decidable_of_iff ((fs.locate false path).all (fun loc => notLink (fs.entry loc)) = true) <| by
    rw [Option.all_eq_true]
    constructor
    · intro h loc t hloc he
      have hnot := h loc hloc
      rw [he] at hnot
      cases hnot
    · intro h loc hloc
      cases he : fs.entry loc with
      | none => rfl
      | some e =>
          cases e with
          | dir | file _ => rfl
          | symlink t => exact absurd he (h loc t hloc)

instance (C : Loc) (fs : Fs) (path : Text) : Decidable (LeadsInto C fs path) :=
  decidable_of_iff ((fs.resolve true path).all (fun x => decide (C <+: x)) = true) <| by
    simp [LeadsInto, Option.all_eq_true]

instance (C : Loc) (fs : Fs) (path : Text) : Decidable (DirLeadsInto C fs path) :=
  decidable_of_iff (notLink (fs.lookup false path) = true ∨ LeadsInto C fs path) <| by
    unfold DirLeadsInto
    cases fs.lookup false path with
    | none => simp [notLink]
    | some e =>
        cases e with
        | dir | file _ => simp [notLink]
        | symlink t => simp [notLink]

instance (chroot : Text) (fs : Fs) (include_file : Bool) (path : Text) :
    Decidable (FollowsInside chroot fs include_file path) :=
  inferInstanceAs (Decidable (_ ∧ _ ∧ (_ → _)))

instance (chroot : Text) (s : World) (c : Call) (r : Res c) : Decidable (JailSafe chroot s c r) :=
  match c, r with
  | .cacheGet .source _, _ => inferInstanceAs (Decidable (_ <+: _))
  | .cacheGet (.walk _) _, some _ => inferInstanceAs (Decidable (_ = _))
  | .cacheGet .parent _, some _ => inferInstanceAs (Decidable (_ ∨ _))
  | .cacheGet (.walk _) _, none | .cacheGet .parent _, none | .cacheGet .dest _, _ =>
      inferInstanceAs (Decidable True)
  | .lstat .parent _, .ok _ => inferInstanceAs (Decidable (_ ∨ _))
  | .lstat .parent _, .error _ | .lstat .source _, _ | .lstat .dest _, _ | .lstat (.walk _) _, _ =>
      inferInstanceAs (Decidable True)
  | .readlink (.walk include_file) ret, .ok realpath =>
      inferInstanceAs (Decidable
        (FollowsInside chroot s.fs include_file (landing chroot ret realpath)))
  | .readlink (.walk _) _, .error _ | .readlink .source _, _ | .readlink .dest _, _
  | .readlink .parent _, _ => inferInstanceAs (Decidable True)
  | .copyfile _ path, _ => inferInstanceAs (Decidable (NoLinkAt s.fs path))
  | .utime path _ _, _ => inferInstanceAs (Decidable (NoLinkAt s.fs path))
  | .chown path _ _, _ => inferInstanceAs (Decidable (NoLinkAt s.fs path))
  | .chmod path _, _ => inferInstanceAs (Decidable (NoLinkAt s.fs path))
  | .unlink path, _ => inferInstanceAs (Decidable (NoLinkAt s.fs path))
  | .writeFile path _ _, _ => inferInstanceAs (Decidable (NoLinkAt s.fs path ∧ _))
  | .cacheSet _ _, _ | .listContains _ _, _ | .listAppend _ _, _ | .stat _, _ | .exists _, _
  | .islink _, _ | .lstatSize _, _ | .openRead _, _ | .listdir _, _ | .scandir _, _ | .glob _, _
  | .lddlistLibraries _, _ | .mkdir _ _, _ | .symlink _ _, _ | .link _ _, _ | .mknod _ _ _ _, _
  | .rmtree _, _ => inferInstanceAs (Decidable True)

/-- The answers of a run in which the code gets what it relies on. -/
def executeSafe (umask : Nat) (chroot : Text) (s : World) (c : Call) : Option (Res c × World) :=
  if JailSafe chroot s c (execute umask s c).1 then some (execute umask s c) else none

theorem safeStep_executeSafe (umask : Nat) (chroot : Text) (s : World) (c : Call) (r : Res c)
    (s' : World) (h : executeSafe umask chroot s c = some (r, s')) :
    SafeStep umask chroot s c r s' := by
  simp only [executeSafe, Option.ite_none_right_eq_some, Option.some.injEq] at h
  obtain ⟨hsafe, heq⟩ := h
  have hposix := posix_execute umask s c
  rw [heq] at hposix hsafe
  exact ⟨hposix, hsafe⟩

def linkedJail (b : Entry) : World :=
  worldOf 0o644 ((["jail".toList, "a".toList], .symlink "b".toList) ::
    (["jail".toList, "b".toList], b) :: (["a".toList, "f".toList], .file 1) ::
    dirsAt [["jail".toList], ["a".toList], ["a".toList, "new".toList], ["etc".toList]])

def isCopyfile : Call → Bool
  | .copyfile _ _ => true
  | _ => false

def isMkdir : Call → Bool
  | .mkdir _ _ => true
  | _ => false

theorem copies_act_inside_link :
    ∃ s, Prog.Reaches (SafeStep 0o022 "/jail".toList)
        (copyBinariesAndLibs 9 "/jail".toList ["/a/f".toList] (defaultOptions false) false 0)
        (linkedJail .dir) (.copyfile "/a/f".toList "/jail/b/f".toList) s ∧
      ActsInside ["jail".toList] s (.copyfile "/a/f".toList "/jail/b/f".toList) := by
  have hrun : ((copyBinariesAndLibs 9 "/jail".toList ["/a/f".toList] (defaultOptions false)
      false 0).drive (executeSafe 0o022 "/jail".toList) isCopyfile (linkedJail .dir)).any
        (fun step => decide (step.1 = .copyfile "/a/f".toList "/jail/b/f".toList) &&
          decide (NoLinkAt step.2.fs "/jail/b/f".toList)) = true := by decide +kernel
  obtain ⟨c, s, hreach, hcheck⟩ :=
    Prog.reaches_of_any (safeStep_executeSafe 0o022 "/jail".toList) hrun
  simp only [Bool.and_eq_true, decide_eq_true_eq] at hcheck
  obtain ⟨hc, hlink⟩ := hcheck
  subst hc
  have hjail : names "/jail".toList = ["jail".toList] := by decide
  have hroot : Rooted (linkedJail .dir).fs "/jail".toList := by
    refine ⟨rfl, ?_, ?_⟩
    · decide +kernel
    · decide +kernel
  refine ⟨s, hreach, ?_⟩
  rw [← hjail]
  exact copies_act_inside hroot (Or.inr ⟨_, _, _, _, hreach⟩) ⟨posix_execute 0o022 s _, hlink⟩

/-- The symlink that is followed leads to a symlink of the jail, which the kernel follows to
the real `/etc`. -/
theorem createParentPath_acts_outside :
    ∃ s, Prog.Reaches (posix 0o022)
        (createParentPath 9 "/jail".toList "/a/new".toList ⟨true, false, false⟩)
        (linkedJail (.symlink "/etc".toList)) (.mkdir "/jail/b/new".toList 0o755) s ∧
      s.fs.locate false "/jail/b/new".toList = some ["etc".toList, "new".toList] ∧
      ¬ ActsInside (names "/jail".toList) s (.mkdir "/jail/b/new".toList 0o755) := by
  have hrun : ((createParentPath 9 "/jail".toList "/a/new".toList ⟨true, false, false⟩).drive
      (fun s c => some (execute 0o022 s c)) isMkdir (linkedJail (.symlink "/etc".toList))).any
        (fun step => decide (step.1 = .mkdir "/jail/b/new".toList 0o755) &&
          decide (step.2.fs.locate false "/jail/b/new".toList =
            some ["etc".toList, "new".toList])) = true := by decide +kernel
  obtain ⟨c, s, hreach, hcheck⟩ := Prog.reaches_of_any (posix_of_execute 0o022) hrun
  simp only [Bool.and_eq_true, decide_eq_true_eq] at hcheck
  obtain ⟨hc, hloc⟩ := hcheck
  subst hc
  refine ⟨s, hreach, hloc, fun hin => ?_⟩
  exact absurd (hin _ hloc) (by decide +kernel)

end Jailkit.Tools
