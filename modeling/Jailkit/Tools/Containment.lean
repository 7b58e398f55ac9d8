import Jailkit.Lib.Ways
import Jailkit.Tools.Copy
import Jailkit.Tools.Execute

/-!
Where `create_parent_path` and `copy_binaries_and_libs` act. The code follows the symlinks
of the jail by itself, step by step from the root, and then hands the path it has made to
the kernel, which follows what is left in the path on the real root.
-/
namespace Jailkit.Tools

open JkLib Raising
open Fs (ValidName KeepsWays Grows isAbsolute components)

/-- The jail is a directory, and stands where the names of its path say. -/
structure Rooted (fs : Fs) (chroot : Text) : Prop where
  absolute : isAbsolute chroot = true
  located : fs.locate true chroot = some (names chroot)
  dir : fs.entry (names chroot) = some .dir

def NoLinkAt (fs : Fs) (path : Text) : Prop :=
  ∀ loc t, fs.locate false path = some loc → fs.entry loc ≠ some (.symlink t)

/-- What exists at the path, for the kernel, is at `C` or below. -/
def LeadsInto (C : Loc) (fs : Fs) (path : Text) : Prop :=
  ∀ x, fs.resolve true path = some x → C <+: x

/-- A directory that is a symlink leads into the jail. -/
def DirLeadsInto (C : Loc) (fs : Fs) (path : Text) : Prop :=
  ∀ t, fs.lookup false path = some (.symlink t) → LeadsInto C fs path

/-- Where a symlink is followed to, the path is one of the jail by its names and leads into
it; where a file is put below, it leads to something. -/
def FollowsInside (chroot : Text) (fs : Fs) (include_file : Bool) (path : Text) : Prop :=
  names chroot <+: names path ∧ LeadsInto (names chroot) fs path ∧
    (include_file = false → (fs.resolve true path).isSome)

/-- The steps on which the code relies. A source path names something below the root;
what the cache says of a path on the way is still so; the names made in the jail are those
of directories and symlinks; each symlink is followed inside; and no call that would
follow a symlink at the end of its path meets one there. -/
def JailSafe (chroot : Text) (s : World) : (c : Call) → Res c → Prop
  | .cacheGet .source file, _ => names chroot <+: names (chroot ++ '/' :: file)
  | .cacheGet (.walk _) path, some buf =>
      (statPath s.fs false path).map StatBuf.format = some buf.format
  | .cacheGet .parent _, some buf => buf.format = .dir ∨ buf.format = .lnk
  | .lstat .parent _, .ok buf => buf.format = .dir ∨ buf.format = .lnk
  | .readlink (.walk include_file) ret, .ok realpath =>
      FollowsInside chroot s.fs include_file (landing chroot ret realpath)
  | .copyfile _ path, _ | .utime path _ _, _ | .chown path _ _, _ | .chmod path _, _
  | .unlink path, _ => NoLinkAt s.fs path
  | .writeFile path _ _, _ => NoLinkAt s.fs path ∧ DirLeadsInto (names chroot) s.fs (dirname path)
  | _, _ => True

/-- The object that the call makes, changes or removes is at `C` or below. -/
def ActsInside (C : Loc) (s : World) : Call → Prop
  | .mkdir path _ => ∀ x, s.fs.locate false (Fs.dirPath path) = some x → C <+: x
  | .symlink _ path | .link _ path | .mknod path _ _ _ | .unlink path | .rmtree path =>
      ∀ x, s.fs.locate false path = some x → C <+: x
  | .copyfile _ path | .writeFile path _ _ | .utime path _ _ | .chown path _ _ | .chmod path _ =>
      ∀ x, s.fs.locate true path = some x → C <+: x
  | _ => True

/-- One step of a run in which the code gets what it relies on. -/
abbrev SafeStep (umask : Nat) (chroot : Text) : Prog.Machine Call Res World :=
  posixWhere umask (JailSafe chroot)

/-- Each such step with this call acts inside. -/
def Guarded (umask : Nat) (chroot : Text) (s : World) (c : Call) : Prop :=
  ∀ r s', SafeStep umask chroot s c r s' → ActsInside (names chroot) s c

def SameFs (s s' : World) : Prop := s'.fs = s.fs

def GrowsFs (s s' : World) : Prop := Grows s.fs s'.fs

def KeepsFs (s s' : World) : Prop := KeepsWays s.fs s'.fs

instance : Std.Refl SameFs := ⟨fun _ => rfl⟩

instance : IsTrans World SameFs := ⟨fun _ _ _ h h' => Eq.trans h' h⟩

instance : Std.Refl GrowsFs := ⟨fun s => Fs.grows_refl s.fs⟩

instance : IsTrans World GrowsFs := ⟨fun _ _ _ h h' => Fs.grows_trans h h'⟩

instance : Std.Refl KeepsFs := ⟨fun s => Fs.keepsWays_refl s.fs⟩

instance : IsTrans World KeepsFs := ⟨fun _ _ _ h h' => Fs.keepsWays_trans h h'⟩

section

variable {α : Type} {umask : Nat} {chroot : Text} {C : Loc} {fs fs' : Fs} {s s' : World}

/-- A run that looks only. -/
abbrev Sees (umask : Nat) (chroot : Text) (p : Py α) (Q : α → World → Prop) (s : World) : Prop :=
  Along (SafeStep umask chroot) (Guarded umask chroot) SameFs p Q s

/-- A run that makes entries and removes none. -/
abbrev Makes (umask : Nat) (chroot : Text) (p : Py α) (Q : α → World → Prop) (s : World) : Prop :=
  Along (SafeStep umask chroot) (Guarded umask chroot) GrowsFs p Q s

/-- A run that leaves the ways through the file system. -/
abbrev Stays (umask : Nat) (chroot : Text) (p : Py α) (Q : α → World → Prop) (s : World) : Prop :=
  Along (SafeStep umask chroot) (Guarded umask chroot) KeepsFs p Q s

theorem growsFs_of_same (h : SameFs s s') : GrowsFs s s' := by
  rw [GrowsFs, h]
  exact Fs.grows_refl s.fs

theorem makes_of_sees {p : Py α} {Q : α → World → Prop} (h : Sees umask chroot p Q s) :
    Makes umask chroot p Q s :=
  along_mono h (fun _ hR => growsFs_of_same hR) fun _ _ hQ => hQ

theorem guarded_looks {c : Call} (h : Looks c) : Guarded umask chroot s c := by
  intro r s' _
  cases c with
  | mkdir _ _ | symlink _ _ | link _ _ | mknod _ _ _ _ | unlink _ | rmtree _ | copyfile _ _
  | writeFile _ _ _ | utime _ _ _ | chown _ _ _ | chmod _ _ => exact h.elim
  | _ => exact trivial

theorem sees_looks {p : Py α} (hp : Prog.Only Looks p) :
    Sees umask chroot p (fun _ _ => True) s :=
  along_of_only hp (fun _ _ _ _ hc hM => posix_looks hc hM.1) (fun _ _ hc => guarded_looks hc) s

/-- The call acts, and removes nothing. -/
def Adding : Call → Prop
  | .unlink _ | .rmtree _ => False
  | _ => True

theorem grows_of_posix {c : Call} {r : Res c} (hc : Adding c) (h : posix umask s c r s') :
    Grows s.fs s'.fs := by
  cases posix_does h with
  | inl hsame => exact growsFs_of_same hsame
  | inr hdoes =>
      cases c with
      | mkdir path mode =>
          obtain ⟨_, _, hmk⟩ := hdoes
          obtain ⟨_, _, hadds⟩ := Fs.mkdir_adds hmk
          exact Fs.grows_adds hadds
      | symlink target path =>
          obtain ⟨_, _, hadds⟩ := Fs.symlink_adds hdoes
          exact Fs.grows_adds hadds
      | link src dst =>
          obtain ⟨_, _, _, hadds⟩ := Fs.link_adds hdoes
          exact Fs.grows_adds hadds
      | copyfile _ _ | writeFile _ _ _ =>
          obtain ⟨_, _, _, hopen⟩ := hdoes
          exact Fs.grows_openWrite hopen
      | utime _ _ _ | chmod _ _ => exact Fs.grows_same (Fs.setAttrs_same hdoes)
      | chown _ _ _ =>
          obtain ⟨_, hset⟩ := hdoes
          exact Fs.grows_same (Fs.setAttrs_same hset)
      | mknod path kind major minor =>
          obtain ⟨_, _, hmk⟩ := hdoes
          obtain ⟨_, _, hadds⟩ := Fs.mknod_adds hmk
          exact Fs.grows_adds hadds
      | unlink _ | rmtree _ => exact hc.elim
      | _ => exact hdoes.elim

theorem rooted_keeps (h : Rooted fs chroot) (hk : KeepsWays fs fs') : Rooted fs' chroot := by
  have hdir := hk.dir _ h.dir
  exact ⟨h.absolute, Fs.locate_keepsWays hk h.located (hdir.trans h.dir.symm), hdir⟩

theorem ne_nil_of_absolute {path : Text} (h : isAbsolute path = true) : path ≠ [] := by
  intro hnil
  rw [hnil] at h
  cases h

theorem locate_join {follow : Bool} {a b : Text} {l : Loc} (ha : a ≠ []) (hb : ValidName b)
    (h : fs.locate follow (osPathJoin a b) = some l) :
    ∃ d, fs.resolve true a = some d ∧ fs.Child follow d b l := by
  have hhead : b.head? ≠ some '/' := fun hslash => hb.2.2.2 (List.mem_of_head? hslash)
  rw [osPathJoin, if_neg hhead] at h
  split at h
  next hlast =>
    obtain ⟨d, hd, hchild⟩ := Fs.locate_slash_child (hlast.resolve_left ha) hb h
    exact ⟨d, Fs.resolve_eq_some.mpr ⟨hd, by rw [hchild.1]; rfl⟩, hchild⟩
  next => exact Fs.locate_child ha hb h

theorem osPathJoin_ne_nil {a b : Text} (ha : a ≠ []) (hb : ValidName b) :
    osPathJoin a b ≠ [] := by
  rw [osPathJoin]
  split
  · exact hb.1
  · split
    · simp [ha]
    · simp

theorem landing_ne_nil (chroot ret realpath : Text) : landing chroot ret realpath ≠ [] := by
  rw [landing]
  split
  · exact normpath_ne_nil _
  · exact normpath_ne_nil _

/-- A name in a directory that is such that the name stands inside. -/
structure Within (C : Loc) (fs : Fs) (ret b : Text) : Prop where
  nonempty : ret ≠ []
  valid : ValidName b
  inside : ∀ d, fs.resolve true ret = some d → C <+: d ++ [b]

theorem within_locate {ret b : Text} {x : Loc} (h : Within C fs ret b)
    (hx : fs.locate false (osPathJoin ret b) = some x) : C <+: x := by
  obtain ⟨d, hd, hchild⟩ := locate_join h.nonempty h.valid hx
  cases hchild.2 with
  | inl heq =>
      rw [heq]
      exact h.inside d hd
  | inr hfollow => cases hfollow.1

theorem within_follow {ret b : Text} {x : Loc} (h : Within C fs ret b)
    (hlink : NoLinkAt fs (osPathJoin ret b))
    (hx : fs.locate true (osPathJoin ret b) = some x) : C <+: x :=
  within_locate h (Fs.locate_unfollow hx hlink)

/-- The directory exists, so that it stays where it is. -/
structure Target (C : Loc) (fs : Fs) (ret b : Text) : Prop where
  nonempty : ret ≠ []
  valid : ValidName b
  exist : ∃ d, fs.resolve true ret = some d ∧ C <+: d ++ [b]

theorem within_of_target {ret b : Text} (h : Target C fs ret b) : Within C fs ret b := by
  obtain ⟨d, hd, hin⟩ := h.exist
  refine ⟨h.nonempty, h.valid, fun d' hd' => ?_⟩
  rw [hd] at hd'
  rwa [← Option.some.inj hd']

theorem target_grows {ret b : Text} (h : Target C fs ret b) (hg : Grows fs fs') :
    Target C fs' ret b := by
  obtain ⟨d, hd, hin⟩ := h.exist
  exact ⟨h.nonempty, h.valid, d, Fs.resolve_grows hg hd, hin⟩

theorem sees_lift {c : Call} (hc : Looks c) {Q : Res c → World → Prop}
    (hQ : ∀ r s', SafeStep umask chroot s c r s' → s'.fs = s.fs → Q r s') :
    Sees umask chroot (Raising.lift (perform c)) Q s :=
  ⟨guarded_looks hc, fun r s' hM => ⟨posix_looks hc hM.1, hQ r s' hM (posix_looks hc hM.1)⟩⟩

theorem lstat_sees (use : Use) (path : Text) (s : World) :
    Sees umask chroot (lstat use path) (fun sb s' => statPath s'.fs false path = some sb ∧
      JailSafe chroot s (.lstat use path) (.ok sb)) s := by
  have hlooks : Looks (.lstat use path) := trivial
  refine ⟨guarded_looks hlooks, fun r s' hM => ?_⟩
  have hfs : s'.fs = s.fs := posix_looks hlooks hM.1
  cases r with
  | error e => exact hfs
  | ok sb =>
      refine ⟨hfs, ?_, hM.2⟩
      rw [hfs]
      exact hM.1.1

/-- What `lstat` or the cache says of a path on the way is so. -/
theorem cachedlstat_walk (include_file : Bool) (path : Text) (s : World) :
    Sees umask chroot (cachedlstat (.walk include_file) path)
      (fun sb s' => ∃ buf, statPath s'.fs false path = some buf ∧ buf.format = sb.format) s := by
  have hget : Sees umask chroot (cacheGet (.walk include_file) path) (fun r s' => ∀ buf,
      r = some buf → (statPath s'.fs false path).map StatBuf.format = some buf.format) s := by
    refine sees_lift (c := .cacheGet (.walk include_file) path) trivial ?_
    intro r s' hM hfs buf hbuf
    subst hbuf
    rw [hfs]
    exact hM.2
  apply along_bind hget
  intro r s₁ _ hr
  cases r with
  | some buf =>
      obtain ⟨b, hb, hformat⟩ := Option.map_eq_some_iff.mp (hr buf rfl)
      exact along_pure buf ⟨b, hb, hformat⟩
  | none =>
      apply along_bind (lstat_sees (.walk include_file) path s₁)
      intro sb s₂ _ hsb
      have hset : Sees umask chroot (cacheSet path sb) (fun _ s' => s'.fs = s₂.fs) s₂ :=
        sees_lift (c := .cacheSet path sb) trivial fun _ _ _ hfs => hfs
      apply along_bind hset
      intro _ s₃ _ hfs
      exact along_pure sb ⟨sb, by rw [hfs]; exact hsb.1, rfl⟩

theorem readlink_walk (include_file : Bool) (ret : Text) (s : World) :
    Sees umask chroot (readlink (.walk include_file) ret) (fun realpath s' =>
      FollowsInside chroot s'.fs include_file (landing chroot ret realpath)) s := by
  have hlooks : Looks (.readlink (.walk include_file) ret) := trivial
  refine ⟨guarded_looks hlooks, fun r s' hM => ?_⟩
  have hfs : s'.fs = s.fs := posix_looks hlooks hM.1
  cases r with
  | error e => exact hfs
  | ok realpath =>
      refine ⟨hfs, ?_⟩
      dsimp only
      rw [hfs]
      exact hM.2

theorem follow_sees (ret realpath : Text) (s : World) :
    Sees umask chroot (follow chroot ret realpath)
      (fun path _ => path = landing chroot ret realpath) s := by
  cases realpath with
  | nil => exact along_raise _
  | cons c realpath =>
      rw [follow]
      split
      · exact along_raise _
      · exact along_pure _ rfl

/-- Where the resolver is: the names of the path made so far and those that are left are
ones of the jail, and the path leads into the jail or, on the way there, to its names. -/
structure OnWay (C : Loc) (fs : Fs) (include_file : Bool) (ret : Text) (rest : List Text) :
    Prop where
  nonempty : ret ≠ []
  named : C <+: names ret ++ rest
  leads : ∀ d, fs.resolve true ret = some d → C <+: d ∨ d = names ret
  exist : include_file = false → (fs.resolve true ret).isSome

theorem onWay_root (include_file : Bool) {rest : List Text} (h : C <+: rest) :
    OnWay C fs include_file ['/'] rest := by
  have hroot : fs.resolve true ['/'] = some [] := by
    refine Fs.resolve_eq_some.mpr ⟨?_, by rw [Fs.entry_root]; rfl⟩
    have hdir : ¬ fs.entry [] ≠ some .dir := fun hne => hne (Fs.entry_root fs)
    have hcomps : components ['/'] = [[], []] := by decide
    have habs : isAbsolute ['/'] = true := by decide
    rw [Fs.locate, if_neg (by simp), if_pos habs, hcomps, Fs.maxSymlinks, Fs.walk, Fs.walkWith,
      if_neg hdir, if_pos (Or.inl rfl), Fs.walkWith, if_neg hdir, if_pos (Or.inl rfl), Fs.walkWith]
  refine ⟨by simp, h, fun d hd => ?_, fun _ => by rw [hroot]; rfl⟩
  rw [hroot] at hd
  exact Or.inr (Option.some.inj hd).symm

theorem onWay_follow {include_file : Bool} {path : Text} {rest : List Text} (hne : path ≠ [])
    (h : FollowsInside chroot fs include_file path) :
    OnWay (names chroot) fs include_file path rest :=
  ⟨hne, h.1.trans (List.prefix_append _ _), fun d hd => Or.inl (h.2.1 d hd), h.2.2⟩

theorem onWay_name {include_file : Bool} {ret entry : Text} {rest : List Text} {buf : StatBuf}
    (h : OnWay C fs include_file ret (entry :: rest)) (hentry : ValidName entry)
    (hstat : statPath fs false (osPathJoin ret entry) = some buf) (hlink : buf.format ≠ .lnk) :
    OnWay C fs include_file (osPathJoin ret entry) rest := by
  have hnames : names (osPathJoin ret entry) = names ret ++ [entry] := by
    rw [names_osPathJoin h.nonempty hentry.2.2.2, normStep_name _ hentry]
  obtain ⟨x, hx, hbuf⟩ := Option.bind_eq_some_iff.mp hstat
  obtain ⟨d, hd, hchild⟩ := locate_join h.nonempty hentry hx
  have hxd : x = d ++ [entry] := hchild.2.resolve_right fun hfollow => by cases hfollow.1
  have hno : ∀ t, fs.entry x ≠ some (.symlink t) := by
    intro t ht
    simp only [statOf, ht, Option.some.injEq] at hbuf
    exact hlink (by rw [← hbuf])
  have hsome : (fs.entry x).isSome := by
    cases he : fs.entry x with
    | none => simp [statOf, he] at hbuf
    | some e => rfl
  have hthere : fs.resolve true (osPathJoin ret entry) = some x :=
    Fs.resolve_eq_some.mpr ⟨Fs.locate_follow hx hno, hsome⟩
  refine ⟨osPathJoin_ne_nil h.nonempty hentry, ?_, fun d' hd' => ?_, fun _ => by rw [hthere]; rfl⟩
  · rw [hnames, List.append_assoc]
    exact h.named
  · rw [hthere] at hd'
    cases hd'
    rw [hxd, hnames]
    cases h.leads d hd with
    | inl hin => exact Or.inl (hin.trans (List.prefix_append d [entry]))
    | inr heq => exact Or.inr (by rw [heq])

theorem resolveLoop_sees (include_file : Bool) (spath rest : List Text)
    (hspath : ∀ n ∈ spath, ValidName n) (ret : Text) (s : World)
    (h : OnWay (names chroot) s.fs include_file ret (spath ++ rest)) :
    Sees umask chroot (resolveLoop include_file chroot ret spath)
      (fun ret' s' => OnWay (names chroot) s'.fs include_file ret' rest) s := by
  induction spath generalizing ret s with
  | nil => exact along_pure ret h
  | cons entry spath ih =>
      have hrest : ∀ n ∈ spath, ValidName n := fun n hn => hspath n (List.mem_cons_of_mem entry hn)
      rw [resolveLoop]
      apply along_bind (cachedlstat_walk include_file (osPathJoin ret entry) s)
      intro sb s₁ hs₁ hstat
      obtain ⟨buf, hbuf, hformat⟩ := hstat
      split
      next hlink =>
        apply along_bind (readlink_walk include_file (osPathJoin ret entry) s₁)
        intro realpath s₂ _ hinside
        apply along_bind (follow_sees (osPathJoin ret entry) realpath s₂)
        intro path s₃ hs₃ hpath
        subst hpath
        apply ih hrest
        have hfs : s₃.fs = s₂.fs := hs₃
        rw [hfs]
        exact onWay_follow (landing_ne_nil chroot _ realpath) hinside
      next hlink =>
        apply ih hrest
        refine onWay_name ?_ (hspath entry List.mem_cons_self) hbuf fun h => hlink (hformat ▸ h)
        have hfs : s₁.fs = s.fs := hs₁
        rw [hfs]
        exact h

theorem split_sees (path : Text) (s : World) :
    Sees umask chroot (split path)
      (fun spath _ => isAbsolute path = true ∧ spath = names path) s := by
  rw [split]
  cases h : splitPath path with
  | some spath => exact along_pure spath (splitPath_eq_some.mp h)
  | none => exact along_raise _

/-- A path that is inside for the kernel and by its names. -/
structure Inside (C : Loc) (fs : Fs) (path : Text) : Prop where
  nonempty : path ≠ []
  named : C <+: names path
  leads : LeadsInto C fs path

/-- The path of an existing entry, with a slash at its end. -/
theorem inside_of_onWay {ret : Text} (h : OnWay C fs true ret []) :
    Inside C fs (osPathJoin ret []) := by
  have hnamed : C <+: names ret := by simpa using h.named
  have hnames : names (osPathJoin ret []) = names ret := by
    rw [names_osPathJoin h.nonempty (by simp), normStep, if_pos (Or.inl rfl)]
  have hleads : LeadsInto C fs ret := by
    intro x hx
    cases h.leads x hx with
    | inl hin => exact hin
    | inr heq =>
        rw [heq]
        exact hnamed
  rw [osPathJoin, if_neg (by simp)] at hnames ⊢
  split at hnames
  next hlast =>
    rw [if_pos hlast, List.append_nil]
    exact ⟨h.nonempty, hnamed, hleads⟩
  next hlast =>
    rw [if_neg hlast]
    refine ⟨by simp, by rw [hnames]; exact hnamed, fun x hx => ?_⟩
    obtain ⟨hloc, hsome⟩ := Fs.resolve_eq_some.mp hx
    obtain ⟨hret, -⟩ := Fs.locate_slash h.nonempty hloc
    exact hleads x (Fs.resolve_eq_some.mpr ⟨hret, hsome⟩)

theorem resolveRealpath_inside {path : Text} (hpath : names chroot <+: names path) (s : World) :
    Sees umask chroot (resolveRealpath path chroot true)
      (fun ret s' => Inside (names chroot) s'.fs ret) s := by
  rw [resolveRealpath]
  split
  next hroot =>
    refine along_pure _ ⟨by simp, by rwa [hroot] at hpath, fun x _ => ?_⟩
    have hnil : names chroot = [] := by
      rw [hroot] at hpath
      exact List.prefix_nil.mp hpath
    rw [hnil]
    exact List.nil_prefix
  next =>
    apply along_bind (split_sees path s)
    intro spath s₁ _ hspath
    obtain ⟨-, hspath⟩ := hspath
    subst hspath
    have hway : OnWay (names chroot) s₁.fs true ['/'] (names path ++ []) :=
      onWay_root true (by rwa [List.append_nil])
    apply along_bind (resolveLoop_sees true _ [] (names_valid path) ['/'] s₁ hway)
    intro ret s₂ _ hret
    exact along_pure _ (inside_of_onWay hret)

/-- The place of a copy: a name below a path that exists and leads into the jail. -/
def Places (C : Loc) (fs : Fs) (path : Text) : Prop :=
  ∃ ret b, path = osPathJoin ret b ∧ Target C fs ret b

theorem resolveRealpath_places {path : Text} (hC : names chroot ≠ [])
    (hpath : names chroot <+: names path) (s : World) :
    Sees umask chroot (resolveRealpath path chroot false)
      (fun ret s' => Places (names chroot) s'.fs ret) s := by
  rw [resolveRealpath]
  split
  next hroot =>
    rw [hroot] at hpath
    exact absurd (List.prefix_nil.mp hpath) hC
  next =>
    apply along_bind (split_sees path s)
    intro spath s₁ _ hspath
    obtain ⟨-, hspath⟩ := hspath
    subst hspath
    simp only [Bool.false_eq_true, if_false]
    split
    · exact along_raise _
    next basename hlast =>
      have hsplit := List.dropLast_append_getLast? basename hlast
      have hvalid : ∀ n ∈ (names path).dropLast, ValidName n :=
        fun n hn => names_valid path n (List.dropLast_subset _ hn)
      have hway : OnWay (names chroot) s₁.fs false ['/'] ((names path).dropLast ++ [basename]) :=
        onWay_root false (by rwa [hsplit])
      apply along_bind (resolveLoop_sees false _ [basename] hvalid ['/'] s₁ hway)
      intro ret s₂ _ hret
      obtain ⟨d, hd⟩ := Option.isSome_iff_exists.mp (hret.exist rfl)
      have hbase : ValidName basename := names_valid path _ (List.mem_of_getLast? hlast)
      refine along_pure _ ⟨ret, basename, rfl, hret.nonempty, hbase, d, hd, ?_⟩
      cases hret.leads d hd with
      | inl hin => exact hin.trans (List.prefix_append d [basename])
      | inr heq =>
          rw [heq]
          exact hret.named

/-- Where the first loop stops, and the names it leaves. -/
def Existing (C : Loc) (fs : Fs) (found : Text × List Text × List Text) : Prop :=
  Inside C fs found.1 ∧ ∀ n ∈ found.2.2, ValidName n

theorem exists_sees (path : Text) (s : World) :
    Sees umask chroot (exists_ path) (fun _ _ => True) s := sees_looks ⟨trivial, fun _ => trivial⟩

theorem inside_same {path : Text} (h : Inside C s.fs path) (hs : SameFs s s') : Inside C s'.fs path := by
  have hfs : s'.fs = s.fs := hs
  rwa [hfs]

theorem followExisting_sees (done spath : List Text) (hspath : ∀ n ∈ spath, ValidName n)
    (existpath : Text) (s : World) (h : Inside (names chroot) s.fs existpath) :
    Sees umask chroot (followExisting chroot existpath done spath)
      (fun found s' => Existing (names chroot) s'.fs found) s := by
  induction spath generalizing existpath done s with
  | nil => exact along_pure _ ⟨h, hspath⟩
  | cons entry spath ih =>
      rw [followExisting]
      apply along_bind (exists_sees (osPathJoin existpath entry) s)
      intro found s₁ hs₁ _
      have h₁ := inside_same h hs₁
      split
      · have hentry := hspath entry List.mem_cons_self
        have hnamed : names chroot <+: names (osPathJoin existpath entry) := by
          rw [names_osPathJoin h.nonempty hentry.2.2.2, normStep_name _ hentry]
          exact h.named.trans (List.prefix_append _ _)
        apply along_bind (resolveRealpath_inside hnamed s₁)
        intro tmp s₂ hs₂ htmp
        apply along_bind (exists_sees tmp s₂)
        intro found s₃ hs₃ _
        split
        · exact ih _ (fun n hn => hspath n (List.mem_cons_of_mem entry hn)) tmp s₃
            (inside_same htmp hs₃)
        · exact along_pure _ ⟨inside_same (inside_same h₁ hs₂) hs₃, hspath⟩
      · exact along_pure _ ⟨h₁, hspath⟩

theorem ends_step {R : World → World → Prop} (r : Except Exn α) (h : R s s') :
    ends (fun (_ : α) s' => R s s' ∧ True) (fun _ s' => R s s') r s' := by
  cases r with
  | ok a => exact ⟨h, trivial⟩
  | error e => exact h

def SameEntriesFs (s s' : World) : Prop := Fs.SameEntries s.fs s'.fs

instance : Std.Refl SameEntriesFs := ⟨fun _ => ⟨rfl, fun _ => rfl⟩⟩

instance : IsTrans World SameEntriesFs :=
  ⟨fun _ _ _ h h' => ⟨h'.1.trans h.1, fun x => (h'.2 x).trans (h.2 x)⟩⟩

abbrev Sets (umask : Nat) (chroot : Text) (p : Py α) (Q : α → World → Prop) (s : World) : Prop :=
  Along (SafeStep umask chroot) (Guarded umask chroot) SameEntriesFs p Q s

theorem makes_of_sets {p : Py α} {Q : α → World → Prop} (h : Sets umask chroot p Q s) :
    Makes umask chroot p Q s :=
  along_mono h (fun _ hR => Fs.grows_same hR) fun _ _ hQ => hQ

theorem sets_of_sees {p : Py α} {Q : α → World → Prop} (h : Sees umask chroot p Q s) :
    Sets umask chroot p Q s := by
  refine along_mono h (fun s' hR => ?_) fun _ _ hQ => hQ
  have hfs : s'.fs = s.fs := hR
  rw [SameEntriesFs, hfs]
  exact ⟨rfl, fun _ => rfl⟩

def Setting : Call → Prop
  | .utime _ _ _ | .chown _ _ _ | .chmod _ _ => True
  | _ => False

theorem sameEntries_of_posix {c : Call} {r : Res c} (hc : Setting c) (h : posix umask s c r s') :
    SameEntriesFs s s' := by
  cases posix_does h with
  | inl hsame =>
      rw [SameEntriesFs, hsame]
      exact ⟨rfl, fun _ => rfl⟩
  | inr hdoes =>
      cases c with
      | utime _ _ _ | chmod _ _ => exact Fs.setAttrs_same hdoes
      | chown _ _ _ =>
          obtain ⟨_, hset⟩ := hdoes
          exact Fs.setAttrs_same hset
      | _ => exact hc.elim

theorem target_same {ret b : Text} (h : Target C s.fs ret b) (hs : SameEntriesFs s s') :
    Target C s'.fs ret b := target_grows h (Fs.grows_same hs)

theorem leadsInto_same {path : Text} (h : LeadsInto C s.fs path) (hs : SameEntriesFs s s') :
    LeadsInto C s'.fs path := by
  have hback : Grows s'.fs s.fs := Fs.grows_same ⟨hs.1.symm, fun x => (hs.2 x).symm⟩
  exact fun x hx => h x (Fs.resolve_grows hback hx)

theorem copyTimeAndPermissions_sets (src : Text) {ret b : Text} (allow_suid copy_ownership : Bool)
    (s : World) (h : Target (names chroot) s.fs ret b) :
    Sets umask chroot
      (copyTimeAndPermissions src (osPathJoin ret b) allow_suid copy_ownership)
      (fun _ _ => True) s := by
  have hstat : Sees umask chroot (stat src) (fun _ _ => True) s :=
    sees_looks ⟨trivial, fun _ => trivial⟩
  apply along_bind (sets_of_sees hstat)
  intro sbuf s₁ hs₁ _
  have h₁ := target_same h hs₁
  have hutime : Sets umask chroot
      (utime (osPathJoin ret b) sbuf.attrs.atime sbuf.attrs.mtime) (fun _ _ => True) s₁ :=
    ⟨fun _ _ hM _ hx => within_follow (within_of_target h₁) hM.2 hx, fun r _ hM =>
      ends_step r (sameEntries_of_posix (c := .utime _ _ _) trivial hM.1)⟩
  apply along_bind hutime
  intro _ s₂ hs₂ _
  have h₂ := target_same h₁ hs₂
  have hchown : Sets umask chroot
      (chownIf copy_ownership (osPathJoin ret b) sbuf.attrs) (fun _ _ => True) s₂ := by
    rw [chownIf]
    split
    · exact ⟨fun _ _ hM _ hx => within_follow (within_of_target h₂) hM.2 hx, fun r _ hM =>
        ends_step r (sameEntries_of_posix (c := .chown _ _ _) trivial hM.1)⟩
    · exact along_pure () trivial
  apply along_bind hchown
  intro _ s₃ hs₃ _
  have h₃ := target_same h₂ hs₃
  exact ⟨fun _ _ hM _ hx => within_follow (within_of_target h₃) hM.2 hx, fun r _ hM =>
    ends_step r (sameEntries_of_posix (c := .chmod _ _) trivial hM.1)⟩

/-- A path below which names can be made. -/
def Usable (C : Loc) (fs : Fs) (existpath : Option Text) : Prop :=
  ∀ path, existpath = some path → path ≠ [] ∧ LeadsInto C fs path

theorem within_of_leads {ret b : Text} (hne : ret ≠ []) (hb : ValidName b)
    (h : LeadsInto C fs ret) : Within C fs ret b :=
  ⟨hne, hb, fun d hd => (h d hd).trans (List.prefix_append d [b])⟩

theorem made_inside {ret b : Text} {a : Attrs} (hne : ret ≠ []) (hb : ValidName b)
    (h : LeadsInto C fs ret) (hmade : fs.mkdir (osPathJoin ret b) a = some fs') :
    Target C fs' ret b ∧ LeadsInto C fs' (osPathJoin ret b) := by
  obtain ⟨loc, hplace, hadds⟩ := Fs.mkdir_adds hmade
  rw [Fs.placeDir, dirPath_osPathJoin ret hb] at hplace
  obtain ⟨d, hd, hchild⟩ := locate_join hne hb (Fs.place_eq_some.mp hplace).1
  have hloc : loc = d ++ [b] := hchild.2.resolve_right fun hfollow => by cases hfollow.1
  have hd' := Fs.resolve_grows (Fs.grows_adds hadds) hd
  have hin := (h d hd).trans (List.prefix_append d [b])
  have hdir : fs'.entry (d ++ [b]) = some .dir := by rw [hadds.2.2, hloc, if_pos rfl]
  refine ⟨⟨hne, hb, d, hd', hin⟩, fun x hx => ?_⟩
  obtain ⟨d', hres, hlast⟩ := locate_join hne hb (Fs.resolve_eq_some.mp hx).1
  rw [hd'] at hres
  cases hres
  cases hlast.2 with
  | inl heq => rwa [heq]
  | inr hlink =>
      obtain ⟨-, t, ht⟩ := hlink
      rw [hdir] at ht
      cases ht

theorem mkdir_makes {ret b : Text} (mode : Nat) (hne : ret ≠ []) (hb : ValidName b) (s : World)
    (h : LeadsInto (names chroot) s.fs ret) :
    Makes umask chroot (mkdir (osPathJoin ret b) mode) (fun _ s' =>
      Target (names chroot) s'.fs ret b ∧ LeadsInto (names chroot) s'.fs (osPathJoin ret b)) s := by
  have hguard : Guarded umask chroot s (.mkdir (osPathJoin ret b) mode) := by
    intro _ _ _ x hx
    rw [dirPath_osPathJoin ret hb] at hx
    exact within_locate (within_of_leads hne hb h) hx
  refine ⟨hguard, fun r s' hM => ?_⟩
  have hgrows : GrowsFs s s' := grows_of_posix (c := .mkdir _ mode) trivial hM.1
  cases r with
  | error e => exact hgrows
  | ok u =>
      obtain ⟨⟨fs', ⟨a, -, hmade⟩, heq⟩, -⟩ := hM
      refine ⟨hgrows, ?_⟩
      rw [heq]
      exact made_inside hne hb h hmade

theorem symlink_makes (realfile : Text) {ret b : Text} (s : World)
    (h : Within (names chroot) s.fs ret b) :
    Makes umask chroot (symlink realfile (osPathJoin ret b)) (fun _ _ => True) s :=
  ⟨fun _ _ _ _ hx => within_locate h hx, fun r _ hM =>
    ends_step r (grows_of_posix (c := .symlink realfile _) trivial hM.1)⟩

theorem copyParentPermissions_sets (o : ParentOptions) (origpath : Text) {ret b : Text}
    (s : World) (h : Target (names chroot) s.fs ret b) :
    Sets umask chroot (copyParentPermissions o origpath (osPathJoin ret b)) (fun _ _ => True) s := by
  rw [copyParentPermissions]
  split
  · exact along_catchOs (copyTimeAndPermissions_sets origpath _ _ s h) fun _ _ => along_raise _
  · exact along_pure () trivial

/-- What a call of `create_parent_path` is relied on for. -/
def MakesParents (umask : Nat) (chroot : Text) (recur : Text → Py (Option Text)) : Prop :=
  ∀ path s, Rooted s.fs chroot →
    Makes umask chroot (recur path) (fun r s' => Usable (names chroot) s'.fs r) s

theorem createParent_makes {recur : Text → Py (Option Text)} {o : ParentOptions}
    (hrecur : MakesParents umask chroot recur) (origpath : Text) {ret b : Text} {sb : StatBuf}
    (s : World) (hroot : Rooted s.fs chroot) (hne : ret ≠ []) (hb : ValidName b)
    (hret : LeadsInto (names chroot) s.fs ret) (hsb : sb.format = .dir ∨ sb.format = .lnk) :
    Makes umask chroot (createParent recur chroot o origpath (osPathJoin ret b) sb)
      (fun r s' => Usable (names chroot) s'.fs r) s := by
  rw [createParent]
  cases hsb with
  | inl hdir =>
      rw [hdir]
      apply along_bind (mkdir_makes 0o755 hne hb s hret)
      intro _ s₁ _ hmade
      apply along_bind
        (makes_of_sets (along_related (copyParentPermissions_sets o origpath s₁ hmade.1)))
      intro _ s₂ _ hs₂
      refine along_pure _ fun path hpath => ?_
      cases hpath
      exact ⟨osPathJoin_ne_nil hne hb, leadsInto_same hmade.2 hs₂.1⟩
  | inr hlnk =>
      rw [hlnk]
      have hread : Sees umask chroot (readlink .parent origpath) (fun _ _ => True) s :=
        sees_looks ⟨trivial, fun _ => trivial⟩
      apply along_bind (makes_of_sees (along_related hread))
      intro realfile s₁ _ hs₁
      have hfs₁ : s₁.fs = s.fs := hs₁.1
      rw [← hfs₁] at hroot hret
      apply along_bind (symlink_makes realfile s₁ (within_of_leads hne hb hret))
      intro _ s₂ hs₂ _
      have hroot₂ := rooted_keeps hroot (Fs.keepsWays_of_grows hs₂)
      cases realfile with
      | nil => exact along_raise _
      | cons c realfile =>
          dsimp only
          split
          · exact hrecur _ s₂ hroot₂
          · split
            · exact along_raise _
            · exact hrecur _ s₂ hroot₂

theorem cachedlstat_parent (path : Text) (s : World) :
    Sees umask chroot (cachedlstat .parent path)
      (fun sb _ => sb.format = .dir ∨ sb.format = .lnk) s := by
  have hget : Sees umask chroot (cacheGet .parent path) (fun r _ => ∀ buf, r = some buf →
      buf.format = .dir ∨ buf.format = .lnk) s := by
    refine sees_lift (c := .cacheGet .parent path) trivial ?_
    intro r s' hM _ buf hbuf
    subst hbuf
    exact hM.2
  apply along_bind hget
  intro r s₁ _ hr
  cases r with
  | some buf => exact along_pure buf (hr buf rfl)
  | none =>
      apply along_bind (lstat_sees .parent path s₁)
      intro sb s₂ _ hsb
      have hset : Sees umask chroot (cacheSet path sb) (fun _ _ => True) s₂ :=
        sees_lift (c := .cacheSet path sb) trivial fun _ _ _ _ => trivial
      apply along_bind hset
      intro _ s₃ _ _
      exact along_pure sb hsb.2

theorem createMissing_makes {recur : Text → Py (Option Text)} {o : ParentOptions}
    (hrecur : MakesParents umask chroot recur) (existpath : Option Text) (done spath : List Text)
    (hspath : ∀ n ∈ spath, ValidName n) (s : World) (hroot : Rooted s.fs chroot)
    (h : Usable (names chroot) s.fs existpath) :
    Makes umask chroot (createMissing recur chroot o existpath done spath)
      (fun r s' => Usable (names chroot) s'.fs r) s := by
  induction spath generalizing existpath done s with
  | nil =>
      rw [createMissing]
      exact along_pure _ h
  | cons entry spath ih =>
      cases existpath with
      | none => exact along_raise _
      | some existpath =>
          have hentry := hspath entry List.mem_cons_self
          have hrest : ∀ n ∈ spath, ValidName n :=
            fun n hn => hspath n (List.mem_cons_of_mem entry hn)
          obtain ⟨hne, hleads⟩ := h existpath rfl
          have hstat : Sees umask chroot
              (catchOs (some <$> cachedlstat .parent (joinPath (done ++ [entry]))) (pure none))
              (fun r _ => ∀ sb, r = some sb → sb.format = .dir ∨ sb.format = .lnk) s := by
            refine along_catchOs (along_bind (cachedlstat_parent _ s) ?_) fun _ _ => ?_
            · intro sb s' _ hsb
              refine along_pure (some sb) fun sb' hsb' => ?_
              cases hsb'
              exact hsb
            · exact along_pure none fun sb hsb => by cases hsb
          rw [createMissing]
          apply along_bind (makes_of_sees (along_related hstat))
          intro r s₁ _ hr
          have hfs₁ : s₁.fs = s.fs := hr.1
          rw [← hfs₁] at hroot hleads
          cases r with
          | none => exact along_pure none fun path hpath => by cases hpath
          | some sb =>
              apply along_bind
                (createParent_makes hrecur _ s₁ hroot hne hentry hleads (hr.2 sb rfl))
              intro existpath' s₂ hs₂ husable
              exact ih existpath' _ hrest s₂ (rooted_keeps hroot (Fs.keepsWays_of_grows hs₂))
                husable

theorem createParentPath_makes (n : Nat) (o : ParentOptions) (path : Text) (s : World)
    (hroot : Rooted s.fs chroot) :
    Makes umask chroot (createParentPath n chroot path o)
      (fun r s' => isAbsolute path = true ∧ Usable (names chroot) s'.fs r) s := by
  induction n generalizing path s with
  | zero => exact along_raise _
  | succ n ih =>
      have hstart : Inside (names chroot) s.fs chroot := by
        refine ⟨ne_nil_of_absolute hroot.absolute, List.prefix_refl _, fun x hx => ?_⟩
        have hloc := (Fs.resolve_eq_some.mp hx).1
        rw [hroot.located] at hloc
        cases hloc
        exact List.prefix_refl _
      rw [createParentPath]
      apply along_bind (makes_of_sees (along_related (split_sees path s)))
      intro spath s₁ _ hspath
      obtain ⟨hs₁, habs, hspath⟩ := hspath
      subst hspath
      have hfs₁ : s₁.fs = s.fs := hs₁
      rw [← hfs₁] at hroot hstart
      apply along_bind (makes_of_sees (along_related
        (followExisting_sees [] (names path) (names_valid path) chroot s₁ hstart)))
      intro found s₂ _ hfound
      obtain ⟨hs₂, hinside, hleft⟩ := hfound
      have hfs₂ : s₂.fs = s₁.fs := hs₂
      rw [← hfs₂] at hroot
      have husable : Usable (names chroot) s₂.fs (some found.1) := by
        intro p hp
        cases hp
        exact ⟨hinside.nonempty, hinside.leads⟩
      have hrecur : MakesParents umask chroot fun realfile => createParentPath n chroot realfile o :=
        fun realfile s hs => along_mono (ih realfile s hs) (fun _ hR => hR) fun _ _ hQ => hQ.2
      have hmissing := createMissing_makes (o := o) hrecur (some found.1) found.2.1 found.2.2
        hleft s₂ hroot husable
      exact along_mono hmissing (fun _ hR => hR) fun _ _ hQ => ⟨habs, hQ⟩

theorem stays_of_makes {p : Py α} {Q : α → World → Prop} (h : Makes umask chroot p Q s) :
    Stays umask chroot p Q s :=
  along_mono h (fun _ hR => Fs.keepsWays_of_grows hR) fun _ _ hQ => hQ

theorem stays_looks {p : Py α} (hp : Prog.Only Looks p) :
    Stays umask chroot p (fun _ _ => True) s := stays_of_makes (makes_of_sees (sees_looks hp))

theorem tryLink_makes (try_hardlink : Bool) (src : Text) {ret b : Text} (s : World)
    (h : Target (names chroot) s.fs ret b) :
    Makes umask chroot (tryLink try_hardlink src (osPathJoin ret b)) (fun _ _ => True) s := by
  rw [tryLink]
  split
  · have hlink : Makes umask chroot (link src (osPathJoin ret b)) (fun _ _ => True) s :=
      ⟨fun _ _ _ _ hx => within_locate (within_of_target h) hx, fun r _ hM =>
        ends_step r (grows_of_posix (c := .link src _) trivial hM.1)⟩
    apply along_handle hlink
    · exact fun _ _ _ _ => along_pure _ trivial
    · exact fun _ _ _ => along_pure _ trivial
  · exact along_pure _ trivial

theorem copyWithPermissions_makes (src : Text) {ret b : Text}
    (try_hardlink allow_suid retain_owner : Bool) (s : World)
    (h : Target (names chroot) s.fs ret b) :
    Makes umask chroot
      (copyWithPermissions src (osPathJoin ret b) try_hardlink allow_suid retain_owner)
      (fun _ _ => True) s := by
  apply along_bind (tryLink_makes try_hardlink src s h)
  intro do_normal_copy s₁ hs₁ _
  have h₁ := target_grows h hs₁
  split
  · refine along_catchOs (along_bind (Q := fun _ _ => True) ?_ ?_) fun _ _ => along_pure () trivial
    · exact ⟨fun _ _ hM _ hx => within_follow (within_of_target h₁) hM.2 hx, fun r _ hM =>
        ends_step r (grows_of_posix (c := .copyfile src _) trivial hM.1)⟩
    · intro _ s₂ hs₂ _
      exact makes_of_sets (copyTimeAndPermissions_sets src _ _ s₂ (target_grows h₁ hs₂))
  · exact along_pure () trivial

theorem makeDevice_makes (sb : StatBuf) (path : Text) {ret b : Text} (retain_owner : Bool)
    (s : World) (h : Target (names chroot) s.fs ret b) :
    Makes umask chroot (makeDevice sb path (osPathJoin ret b) retain_owner)
      (fun _ _ => True) s := by
  have hdevice : ∀ kind, Makes umask chroot (do
      mknod (osPathJoin ret b) kind (sb.rdev / 256) (sb.rdev % 256)
      copyTimeAndPermissions path (osPathJoin ret b) false retain_owner) (fun _ _ => True) s := by
    intro kind
    have hmknod : Makes umask chroot
        (mknod (osPathJoin ret b) kind (sb.rdev / 256) (sb.rdev % 256)) (fun _ _ => True) s :=
      ⟨fun _ _ _ _ hx => within_locate (within_of_target h) hx, fun _ _ hM =>
        ⟨grows_of_posix (c := .mknod _ kind _ _) trivial hM.1, trivial⟩⟩
    apply along_bind hmknod
    intro _ s₁ hs₁ _
    exact makes_of_sets (copyTimeAndPermissions_sets path _ _ s₁ (target_grows h hs₁))
  rw [makeDevice]
  split
  · exact hdevice .chr
  · exact hdevice .blk
  · exact along_pure () trivial

theorem names_append {a b : Text} (hb : isAbsolute b = true) :
    names (a ++ b) = names (a ++ '/' :: b) := by
  cases b with
  | nil => cases hb
  | cons c b =>
      have hc : c = '/' := by simpa [isAbsolute] using hb
      have hcomps : components ('/' :: b) = [] :: components b := by
        have h := components_slash [] b
        rwa [List.nil_append] at h
      rw [hc, names_slash, names_slash, hcomps, List.foldl_cons, normStep, if_pos (Or.inl rfl)]

theorem copyDevice_makes (fuel : Nat) {path : Text} (retain_owner : Bool)
    (hC : names chroot ≠ []) (habs : isAbsolute path = true)
    (hpath : names chroot <+: names (chroot ++ '/' :: path)) (s : World)
    (hroot : Rooted s.fs chroot) :
    Makes umask chroot (copyDevice fuel chroot path retain_owner) (fun _ _ => True) s := by
  apply along_bind (createParentPath_makes fuel _ (dirname path) s hroot)
  intro _ s₁ _ _
  rw [← names_append habs] at hpath
  apply along_bind (makes_of_sees (resolveRealpath_places hC hpath s₁))
  intro chrootpath s₂ _ hplace
  obtain ⟨ret, b, rfl, htarget⟩ := hplace
  apply along_bind (makes_of_sees (along_related (exists_sees _ s₂)))
  intro there s₃ _ hs₃
  have hfs₃ : s₃.fs = s₂.fs := hs₃.1
  rw [← hfs₃] at htarget
  split
  · exact along_pure () trivial
  · have hstat : Sees umask chroot (stat path) (fun _ _ => True) s₃ :=
      sees_looks ⟨trivial, fun _ => trivial⟩
    apply along_bind (makes_of_sees (along_related hstat))
    intro sb s₄ _ hs₄
    have hfs₄ : s₄.fs = s₃.fs := hs₄.1
    rw [← hfs₄] at htarget
    apply along_handle (makeDevice_makes sb path retain_owner s₄ htarget)
    · exact fun _ _ _ _ => along_pure () trivial
    · exact fun _ _ _ => along_pure () trivial

theorem deleteDest_stays (o : CopyOptions) (chrootsb : Option StatBuf) {ret b : Text} (s : World)
    (h : Target (names chroot) s.fs ret b) :
    Stays umask chroot (deleteDest o chrootsb (osPathJoin ret b))
      (fun _ s' => Target (names chroot) s'.fs ret b) s := by
  cases chrootsb with
  | none => exact along_pure () h
  | some chrootsb =>
      rw [deleteDest]
      split
      · refine along_exceptOs ⟨fun _ _ _ _ hx => within_locate (within_of_target h) hx, ?_⟩
          fun _ _ _ => along_raise _
        intro r s' hM
        cases r with
        | error e =>
            have hs' : s' = s := hM.1.2
            rw [hs']
            exact Fs.keepsWays_refl s.fs
        | ok u =>
            obtain ⟨⟨fs', hgone, heq⟩, hlink⟩ := hM
            rw [heq]
            have hkeeps : KeepsWays s.fs fs' := Fs.unlink_keepsWays hgone hlink
            refine ⟨hkeeps, h.nonempty, h.valid, ?_⟩
            obtain ⟨d, hd, hin⟩ := h.exist
            obtain ⟨hloc, hsome⟩ := Fs.resolve_eq_some.mp hd
            obtain ⟨x, hx, -, hdir, hfs'⟩ := Fs.unlink_eq_some hgone
            obtain ⟨d', hd', hchild⟩ := locate_join h.nonempty h.valid hx
            rw [hd] at hd'
            cases hd'
            have hxd : x = d ++ [b] := hchild.2.resolve_right fun hfollow => by cases hfollow.1
            have hsame : fs'.entry d = s.fs.entry d := by
              rw [hfs', Fs.entry_unlinked hdir, if_neg (by simp [hxd])]
            have hthere := Fs.locate_keepsWays hkeeps hloc hsame
            exact ⟨d, Fs.resolve_eq_some.mpr ⟨hthere, by rwa [hsame]⟩, hin⟩
      · exact along_pure () h

end

end Jailkit.Tools
