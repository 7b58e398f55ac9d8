import Jailkit.Lib.Additions
import Jailkit.Tools.Suid

/-!
What `copy_binaries_and_libs` leaves alone without `force_overwrite`. It writes a copy where
its flag says that nothing stands, and the flag is the one of the round before when `lstat`
fails with an error that it does not know.

The runs carry the place at which a destination was looked for last, as long as the answer
hides nothing that stands there. A run that writes at such places only adds files.
-/
namespace Jailkit.Tools

open JkLib Raising
open Fs (Spares NoNewFiles FreshAt)

abbrev Watch := World × Option Loc

/-- An error hides what stands at the path, and so does a directory in the cache that is none. -/
def noteLook (s : World) (looked : Option Loc) : (c : Call) → Res c → Option Loc
  | .cacheGet .dest path, none => s.fs.locate false path
  | .cacheGet .dest path, some buf =>
      if buf.format = .dir ∧ s.fs.lookup false path ≠ some .dir then none
      else s.fs.locate false path
  | .lstat .dest path, .error _ => if s.fs.lookup false path = none then looked else none
  | _, _ => looked

/-- The runs in which every answer is one of these, with the place that is watched. -/
def Watched (umask : Nat) (Ok : Watch → (c : Call) → Res c → Prop) :
    Prog.Machine Call Res Watch :=
  fun w c r w' => posix umask w.1 c r w'.1 ∧ w'.2 = noteLook w.1 w.2 c r ∧ Ok w c r

/-- A copy is written at the place that was looked at, and a device is made where nothing
stands. -/
def WritesSeen (w : Watch) : (c : Call) → Res c → Prop
  | .copyfile _ dst, _ => ∀ x, w.1.fs.locate true dst = some x → w.2 = some x
  | .mknod path _ _ _, _ => w.1.fs.lookup true path = none
  | _, _ => True

/-- What is no directory at `L` or below is in its place, and a file is what it was. -/
def Untouched (L : Loc) (fs fs' : Fs) : Prop :=
  ∀ x e, L <+: x → fs.entry x = some e → e ≠ .dir →
    fs'.entry x = some e ∧ ∀ ino, e = .file ino → fs'.inode ino = fs.inode ino

/-- However such a run ends. -/
def KeepsExisting {α : Type} (umask : Nat) (Ok : Watch → (c : Call) → Res c → Prop) (L : Loc)
    (p : Py α) (s : World) : Prop :=
  ∀ r w', Prog.Returns (Watched umask Ok) p (s, none) r w' → Untouched L s.fs w'.1.fs

theorem untouched_of_spares {L : Loc} {fs fs' : Fs} (hn : fs.Numbered)
    (h : Spares fs.nextIno fs fs') : Untouched L fs fs' := by
  intro x e _ he _
  refine ⟨h.grows.entry x e he, fun ino hino => h.inodes ino (hn x ino ?_)⟩
  rw [he, hino]

/-- The files numbered below `n` are spared. -/
def SparesFs (n : Nat) (w w' : Watch) : Prop := Spares n w.1.fs w'.1.fs

/-- No file is made either, and the same place is watched. -/
structure Prepares (n : Nat) (w w' : Watch) : Prop where
  spares : SparesFs n w w'
  files : NoNewFiles w.1.fs w'.1.fs
  looked : w'.2 = w.2

instance (n : Nat) : Std.Refl (SparesFs n) := ⟨fun w => Fs.spares_refl n w.1.fs⟩

instance (n : Nat) : IsTrans Watch (SparesFs n) := ⟨fun _ _ _ h h' => Fs.spares_trans h h'⟩

instance (n : Nat) : Std.Refl (Prepares n) :=
  ⟨fun w => ⟨Fs.spares_refl n w.1.fs, Fs.noNewFiles_refl w.1.fs, rfl⟩⟩

instance (n : Nat) : IsTrans Watch (Prepares n) :=
  ⟨fun _ _ _ h h' => ⟨Fs.spares_trans h.spares h'.spares,
    Fs.noNewFiles_trans h.files h'.files, h'.looked.trans h.looked⟩⟩

section

variable {α : Type} {umask n : Nat} {w w' : Watch}

abbrev Sparing (umask n : Nat) (p : Py α) (Q : α → Watch → Prop) (w : Watch) : Prop :=
  Along (Watched umask WritesSeen) (fun _ _ => True) (SparesFs n) p Q w

abbrev Preparing (umask n : Nat) (p : Py α) (Q : α → Watch → Prop) (w : Watch) : Prop :=
  Along (Watched umask WritesSeen) (fun _ _ => True) (Prepares n) p Q w

theorem sparing_of_preparing {p : Py α} {Q : α → Watch → Prop} (h : Preparing umask n p Q w) :
    Sparing umask n p Q w :=
  along_mono h (fun _ hR => hR.spares) fun _ _ hQ => hQ

theorem numbers_spares (h : SparesFs n w w') (hn : n ≤ w.1.fs.nextIno) : n ≤ w'.1.fs.nextIno :=
  hn.trans h.numbers

theorem spares_same (h : w'.1.fs = w.1.fs) : SparesFs n w w' := by
  rw [SparesFs, h]
  exact Fs.spares_refl n w.1.fs

theorem prepares_same (h : w'.1.fs = w.1.fs) (hlooked : w'.2 = w.2) : Prepares n w w' := by
  refine ⟨spares_same h, ?_, hlooked⟩
  rw [h]
  exact Fs.noNewFiles_refl w.1.fs

/-- Calls that do not look for a destination, and make no files. -/
def Aside : Call → Prop
  | .cacheGet .dest _ | .lstat .dest _ => False
  | .mkdir _ _ | .symlink _ _ => True
  | c => Looks c

theorem prepares_step {c : Call} {r : Res c} (hc : Aside c)
    (h : Watched umask WritesSeen w c r w') : Prepares n w w' := by
  obtain ⟨hposix, hlooked, -⟩ := h
  have hsame : w'.2 = w.2 := by
    rw [hlooked]
    cases c with
    | cacheGet use path | lstat use path =>
        cases use with
        | dest => exact hc.elim
        | source | parent | walk _ => rfl
    | _ => rfl
  cases posix_does hposix with
  | inl hfs => exact prepares_same hfs hsame
  | inr hdoes =>
      cases c with
      | mkdir path mode =>
          obtain ⟨a, -, hmk⟩ := hdoes
          obtain ⟨loc, -, hadds⟩ := Fs.mkdir_adds hmk
          exact ⟨Fs.spares_mkdir hmk, Fs.noNewFiles_adds hadds (by simp), hsame⟩
      | symlink target path =>
          obtain ⟨loc, -, hadds⟩ := Fs.symlink_adds hdoes
          exact ⟨Fs.spares_symlink hdoes, Fs.noNewFiles_adds hadds (by simp), hsame⟩
      | link _ _ | copyfile _ _ | writeFile _ _ _ | utime _ _ _ | chown _ _ _ | chmod _ _ | unlink _
      | mknod _ _ _ _ | rmtree _ => exact hc.elim
      | _ => exact hdoes.elim

theorem preparing_only {p : Py α} (hp : Prog.Only Aside p) :
    Preparing umask n p (fun _ _ => True) w :=
  along_of_only hp (fun _ _ _ _ hc hM => prepares_step hc hM) (fun _ _ _ => trivial) w

theorem aside_of_findsWay {c : Call} (h : FindsWay c) : Aside c := by
  cases c with
  | cacheGet use path | lstat use path =>
      cases use with
      | dest => exact h.elim
      | source | parent | walk _ => trivial
  | cacheSet _ _ | readlink _ _ | «exists» _ => trivial
  | _ => exact h.elim

theorem preparing_resolve (path chroot : Text) (include_file : Bool) :
    Preparing umask n (resolveRealpath path chroot include_file) (fun _ _ => True) w :=
  preparing_only (Prog.only_mono (resolveRealpath_findsWay path chroot include_file)
    fun _ => aside_of_findsWay)

theorem cachedlstat_aside (use : Use) (path : Text) (huse : use ≠ .dest) :
    Prog.Only Aside (cachedlstat use path) := by
  cases use with
  | dest => exact absurd rfl huse
  | source | parent | walk _ => exact cachedlstat_only trivial trivial fun _ => trivial

def Retouches (path : Text) (c : Call) : Prop :=
  (∃ src, c = .stat src) ∨ (∃ atime mtime, c = .utime path atime mtime) ∨
    (∃ uid gid, c = .chown path uid gid) ∨ ∃ mode, c = .chmod path mode

theorem retouches_step {path : Text} {c : Call} {r : Res c} (hc : Retouches path c)
    (hfresh : FreshAt n w.1.fs path) (h : Watched umask WritesSeen w c r w') :
    Prepares n w w' ∧ FreshAt n w'.1.fs path := by
  obtain ⟨hposix, hlooked, -⟩ := h
  have hset : ∀ f, w.1.fs.setAttrs path f = some w'.1.fs → w'.2 = w.2 →
      Prepares n w w' ∧ FreshAt n w'.1.fs path := by
    intro f hset hsame
    have hentries := Fs.setAttrs_same hset
    refine ⟨⟨Fs.spares_setAttrs hfresh hset, fun x ino hx => ?_, hsame⟩,
      Fs.freshAt_same hentries hfresh⟩
    rwa [hentries.2] at hx
  cases posix_does hposix with
  | inl hfs =>
      rw [hfs]
      refine ⟨prepares_same hfs ?_, hfresh⟩
      rw [hlooked]
      obtain ⟨_, rfl⟩ | ⟨_, _, rfl⟩ | ⟨_, _, rfl⟩ | ⟨_, rfl⟩ := hc <;> rfl
  | inr hdoes =>
      obtain ⟨src, rfl⟩ | ⟨atime, mtime, rfl⟩ | ⟨uid, gid, rfl⟩ | ⟨mode, rfl⟩ := hc
      · exact hdoes.elim
      · exact hset _ hdoes hlooked
      · obtain ⟨keep, hchown⟩ := hdoes
        exact hset _ hchown hlooked
      · exact hset _ hdoes hlooked

theorem copyTimeAndPermissions_retouches (src dst : Text) (allow_suid copy_ownership : Bool) :
    Prog.Only (Retouches dst) (copyTimeAndPermissions src dst allow_suid copy_ownership) := by
  refine only_bind ⟨Or.inl ⟨_, rfl⟩, fun _ => trivial⟩ fun sbuf => ?_
  refine only_bind ⟨Or.inr (Or.inl ⟨_, _, rfl⟩), fun _ => trivial⟩ fun _ => ?_
  refine only_bind ?_ fun _ => ⟨Or.inr (Or.inr (Or.inr ⟨_, rfl⟩)), fun _ => trivial⟩
  cases copy_ownership with
  | true => exact ⟨Or.inr (Or.inr (Or.inl ⟨_, _, rfl⟩)), fun _ => trivial⟩
  | false => exact trivial

theorem preparing_retouch {dst : Text} (src : Text) (allow_suid copy_ownership : Bool)
    (hfresh : FreshAt n w.1.fs dst) :
    Preparing umask n (copyTimeAndPermissions src dst allow_suid copy_ownership)
      (fun _ _ => True) w := by
  have hrun : Holds (Watched umask WritesSeen) (fun _ _ => True)
      (copyTimeAndPermissions src dst allow_suid copy_ownership)
      (fun _ w' => Prepares n w w' ∧ FreshAt n w'.1.fs dst)
      (fun _ w' => Prepares n w w' ∧ FreshAt n w'.1.fs dst) w := by
    apply holds_of_only (copyTimeAndPermissions_retouches src dst allow_suid copy_ownership)
    · intro w₁ c r w₂ hc hw₁ hM
      obtain ⟨hstep, hfresh₂⟩ := retouches_step hc hw₁.2 hM
      exact ⟨IsTrans.trans _ _ _ hw₁.1 hstep, hfresh₂⟩
    · exact fun _ _ _ _ => trivial
    · exact ⟨Std.Refl.refl w, hfresh⟩
  exact holds_mono hrun (fun _ _ h => ⟨h.1, trivial⟩) fun _ _ h => h.1

theorem preparing_mkdir (path : Text) (mode : Nat) :
    Preparing umask n (mkdir path mode) (fun _ w' => FreshAt n w'.1.fs path) w := by
  refine ⟨trivial, fun r w' hM => ?_⟩
  have hstep : Prepares n w w' := prepares_step (c := .mkdir path mode) trivial hM
  cases r with
  | error e => exact hstep
  | ok u =>
      obtain ⟨⟨fs', ⟨a, -, hmk⟩, heq⟩, -, -⟩ := hM
      obtain ⟨loc, hplace, hadds⟩ := Fs.mkdir_adds hmk
      refine ⟨hstep, ?_⟩
      dsimp only
      rw [heq]
      exact Fs.freshAt_dirPath
        (Fs.freshAt_adds hadds (by simp) (Fs.place_eq_some.mp hplace).1 (by simp))

theorem preparing_copyParentPermissions (o : ParentOptions) (origpath : Text) {jailpath : Text}
    (hfresh : FreshAt n w.1.fs jailpath) :
    Preparing umask n (copyParentPermissions o origpath jailpath) (fun _ _ => True) w := by
  rw [copyParentPermissions]
  split
  · exact along_catchOs (preparing_retouch origpath _ _ hfresh) fun _ _ => along_raise _
  · exact along_pure () trivial

theorem createParent_prepares {recur : Text → Py (Option Text)}
    (hrecur : ∀ realfile w, Preparing umask n (recur realfile) (fun _ _ => True) w)
    (chroot : Text) (o : ParentOptions) (origpath jailpath : Text) (sb : StatBuf) (w : Watch) :
    Preparing umask n (createParent recur chroot o origpath jailpath sb) (fun _ _ => True) w := by
  rw [createParent]
  split
  · apply along_bind (preparing_mkdir jailpath 0o755)
    intro _ w₁ _ hfresh
    apply along_bind (preparing_copyParentPermissions o origpath hfresh)
    exact fun _ _ _ _ => along_pure _ trivial
  · have hread : Preparing umask n (readlink .parent origpath) (fun _ _ => True) w :=
      preparing_only ⟨trivial, fun _ => trivial⟩
    apply along_bind hread
    intro realfile w₁ _ _
    have hlink : Preparing umask n (symlink realfile jailpath) (fun _ _ => True) w₁ :=
      preparing_only ⟨trivial, fun _ => trivial⟩
    apply along_bind hlink
    intro _ w₂ _ _
    cases realfile with
    | nil => exact along_raise _
    | cons c realfile =>
        dsimp only
        split
        · exact hrecur _ w₂
        · split
          · exact along_raise _
          · exact hrecur _ w₂
  · exact along_pure _ trivial

theorem createMissing_prepares {recur : Text → Py (Option Text)}
    (hrecur : ∀ realfile w, Preparing umask n (recur realfile) (fun _ _ => True) w)
    (chroot : Text) (o : ParentOptions) (existpath : Option Text) (done spath : List Text)
    (w : Watch) :
    Preparing umask n (createMissing recur chroot o existpath done spath) (fun _ _ => True) w := by
  induction spath generalizing existpath done w with
  | nil =>
      rw [createMissing]
      exact along_pure _ trivial
  | cons entry spath ih =>
      cases existpath with
      | none => exact along_raise _
      | some existpath =>
          have hlook : Prog.Only Aside
              (some <$> cachedlstat .parent (joinPath (done ++ [entry])) : Py _) :=
            only_bind (cachedlstat_aside .parent _ (by simp)) fun _ => trivial
          rw [createMissing]
          apply along_bind
            (along_catchOs (preparing_only hlook) fun _ _ => along_pure none trivial)
          intro sb w₁ _ _
          cases sb with
          | none => exact along_pure _ trivial
          | some sb =>
              apply along_bind (createParent_prepares hrecur chroot o _ _ sb w₁)
              intro existpath w₂ _ _
              exact ih existpath _ w₂

theorem createParentPath_prepares (fuel : Nat) (chroot path : Text) (o : ParentOptions)
    (w : Watch) :
    Preparing umask n (createParentPath fuel chroot path o) (fun _ _ => True) w := by
  induction fuel generalizing path w with
  | zero => exact along_raise _
  | succ fuel ih =>
      rw [createParentPath]
      apply along_bind (preparing_only (split_only path))
      intro spath w₁ _ _
      have hexisting : Prog.Only Aside (followExisting chroot chroot [] spath) :=
        Prog.only_mono (followExisting_findsWay _ _ _ _) fun _ => aside_of_findsWay
      apply along_bind (preparing_only hexisting)
      intro found w₂ _ _
      exact createMissing_prepares (fun realfile w => ih realfile w) _ _ _ _ _ w₂

/-- No file stands at the place that is watched. -/
def Vacant (w : Watch) : Prop := ∀ x ino, w.2 = some x → w.1.fs.entry x ≠ some (.file ino)

theorem vacant_none (h : w.2 = none) : Vacant w := by
  intro x ino hx
  rw [h] at hx
  cases hx

theorem vacant_lookup (path : Text) (hlooked : w.2 = w.1.fs.locate false path)
    (h : ∀ ino, w.1.fs.lookup false path ≠ some (.file ino)) : Vacant w := by
  intro x ino hx he
  rw [hlooked] at hx
  exact h ino (by rw [Fs.lookup, hx, Option.bind_some, he])

theorem vacant_prepares (h : Prepares n w w') (hvacant : Vacant w) : Vacant w' := by
  intro x ino hx he
  rw [h.looked] at hx
  exact hvacant x ino hx (h.files x ino he)

theorem lookup_of_statDir {fs : Fs} {path : Text} {buf : StatBuf}
    (h : statPath fs false path = some buf) (hdir : buf.format = .dir) :
    fs.lookup false path = some .dir := by
  obtain ⟨x, hx, hbuf⟩ := Option.bind_eq_some_iff.mp h
  rw [Fs.lookup, hx, Option.bind_some]
  cases he : fs.entry x with
  | none => simp [statOf, he] at hbuf
  | some e =>
      cases e with
      | dir => rfl
      | symlink t =>
          simp only [statOf, he, Option.some.injEq] at hbuf
          rw [← hbuf] at hdir
          cases hdir
      | file ino =>
          simp only [statOf, he, Option.some.injEq] at hbuf
          rw [← hbuf] at hdir
          cases hkind : (fs.inode ino).kind with
          | reg | chr | blk | other =>
              simp only [hkind, Format.ofKind] at hdir
              cases hdir

theorem vacant_dir {path : Text} (hlooked : w.2 = w.1.fs.locate false path)
    (hdir : w.1.fs.lookup false path = some .dir) : Vacant w := by
  refine vacant_lookup path hlooked fun ino hfile => ?_
  rw [hdir] at hfile
  cases hfile

/-- A directory in the cache is one, or it is not watched. -/
theorem vacant_cached {path : Text} {buf : StatBuf}
    (h : Watched umask WritesSeen w (.cacheGet .dest path) (some buf) w')
    (hdir : buf.format = .dir) : Vacant w' := by
  obtain ⟨⟨-, hw'⟩, hlooked, -⟩ := h
  rw [noteLook] at hlooked
  split at hlooked
  next => exact vacant_none hlooked
  next hshown =>
    have hlookup : w.1.fs.lookup false path = some .dir :=
      Classical.not_not.mp fun hne => hshown ⟨hdir, hne⟩
    exact vacant_dir (by rw [hlooked, hw']) (by rw [hw', hlookup])

/-- Where the look fails, nothing stands there, or it is not watched. -/
theorem vacant_failed {path : Text} {e : Exn} (hwatch : w.2 = w.1.fs.locate false path)
    (h : Watched umask WritesSeen w (.lstat .dest path) (.error e) w') : Vacant w' := by
  obtain ⟨⟨-, hw'⟩, hlooked, -⟩ := h
  simp only [noteLook] at hlooked
  split at hlooked
  next hmissing =>
    refine vacant_lookup path (by rw [hlooked, hwatch, hw']) fun ino hfile => ?_
    rw [hw', hmissing] at hfile
    cases hfile
  next => exact vacant_none hlooked

/-- A destination that is found to be a directory is one, or it is not watched; where the
look fails, the flag may say anything. -/
theorem cachedlstat_dest (path : Text) (w : Watch) :
    Holds (Watched umask WritesSeen) (fun _ _ => True) (cachedlstat .dest path)
      (fun buf w' => SparesFs n w w' ∧ (buf.format = .dir → Vacant w'))
      (fun _ w' => SparesFs n w w' ∧ Vacant w') w := by
  apply holds_bind
  refine ⟨trivial, fun found w₁ hget => ?_⟩
  have hfs₁ : w₁.1.fs = w.1.fs := by rw [hget.1.2]
  cases found with
  | some buf => exact ⟨spares_same hfs₁, vacant_cached hget⟩
  | none =>
      have hwatch₁ : w₁.2 = w₁.1.fs.locate false path := by
        rw [hfs₁]
        exact hget.2.1
      apply holds_bind
      refine ⟨trivial, fun r w₂ hlstat => ?_⟩
      have hfs₂ : w₂.1.fs = w₁.1.fs := by rw [hlstat.1.2]
      cases r with
      | error e => exact ⟨spares_same (hfs₂.trans hfs₁), vacant_failed hwatch₁ hlstat⟩
      | ok buf =>
          have hbuf : statPath w₁.1.fs false path = some buf := hlstat.1.1
          refine ⟨trivial, fun _ w₃ hset => ?_⟩
          have hfs₃ : w₃.1.fs = w₁.1.fs := by
            rw [show w₃.1 = _ from hset.1]
            exact hfs₂
          have hwatch₃ : w₃.2 = w₁.2 := hset.2.1.trans hlstat.2.1
          refine ⟨spares_same (hfs₃.trans hfs₁), fun hdir => ?_⟩
          apply vacant_dir
          · rw [hwatch₃, hwatch₁, hfs₃]
          · rw [hfs₃, lookup_of_statDir hbuf hdir]

theorem lookAtDest_vacant {o : CopyOptions} (hforce : o.force_overwrite = false) (dest : Dest)
    (path : Text) (w : Watch) :
    Sparing umask n (lookAtDest dest path) (fun dest' w' => ∀ chrootsb,
      dest' = some chrootsb → keepsDest o chrootsb = false → Vacant w') w := by
  apply holds_bind
  apply holds_attempt
  apply holds_mono (cachedlstat_dest path w)
  · intro buf w₁ hw₁
    obtain ⟨hspares, hvacant⟩ := hw₁
    refine ⟨hspares, fun chrootsb hsb hkeeps => hvacant ?_⟩
    cases hsb
    simpa [keepsDest, hforce] using hkeeps
  · intro e w₁ hw₁
    obtain ⟨hspares, hvacant⟩ := hw₁
    cases e with
    | osError errno =>
        dsimp only
        split
        · exact ⟨hspares, fun _ _ _ => hvacant⟩
        · exact ⟨hspares, fun _ _ _ => hvacant⟩
    | osErrorText | outsideJail | valueError | nameError | typeError | indexError
    | unboundLocal | memoryError | recursionError => exact hspares

theorem tryLink_vacant (try_hardlink : Bool) (src dst : Text) (hvacant : Vacant w) :
    Sparing umask n (tryLink try_hardlink src dst) (fun again w' => again = true → Vacant w')
      w := by
  rw [tryLink]
  split
  · apply holds_bind
    apply holds_attempt
    refine ⟨trivial, fun r w' hM => ?_⟩
    obtain ⟨hacts, hlooked, -⟩ := hM
    cases r with
    | ok u =>
        obtain ⟨fs', hlink, heq⟩ := hacts
        refine ⟨?_, fun hagain => by cases hagain⟩
        rw [SparesFs, heq]
        exact Fs.spares_link hlink
    | error e =>
        have heq : w'.1 = w.1 := hacts.2
        have hw' : Prepares n w w' := prepares_same (by rw [heq]) hlooked
        exact ⟨hw'.spares, fun _ => vacant_prepares hw' hvacant⟩
  · exact along_pure true fun _ => hvacant

/-- The copy is a new file, since none stands where it is written. -/
theorem sparing_copyfile (src dst : Text) (hn : n ≤ w.1.fs.nextIno) (hvacant : Vacant w) :
    Sparing umask n (copyfile src dst) (fun _ w' => FreshAt n w'.1.fs dst) w := by
  refine ⟨trivial, fun r w' hM => ?_⟩
  obtain ⟨hcopies, -, hseen⟩ := hM
  have hfile : ∀ x ino, w.1.fs.locate true dst = some x → w.1.fs.entry x ≠ some (.file ino) :=
    fun x ino hx => hvacant x ino (hseen x hx)
  cases r with
  | ok u =>
      obtain ⟨_, _, a, fs', _, _, _, _, hopen, heq⟩ := hcopies
      obtain ⟨hspares, hfresh⟩ := Fs.spares_openWrite hn hfile hopen
      refine ⟨?_, ?_⟩
      · rw [SparesFs, heq]
        exact hspares
      · dsimp only
        rw [heq]
        exact hfresh
  | error e =>
      change SparesFs n w w'
      cases hcopies.2 with
      | inl heq => exact spares_same (by rw [heq])
      | inr hpart =>
          obtain ⟨a, content, fs', _, hopen, heq⟩ := hpart
          rw [SparesFs, heq]
          exact (Fs.spares_openWrite hn hfile hopen).1

theorem copyWithPermissions_spares (src dst : Text) (try_hardlink allow_suid retain_owner : Bool)
    (hn : n ≤ w.1.fs.nextIno) (hvacant : Vacant w) :
    Sparing umask n (copyWithPermissions src dst try_hardlink allow_suid retain_owner)
      (fun _ _ => True) w := by
  apply along_bind (tryLink_vacant try_hardlink src dst hvacant)
  intro do_normal_copy w₁ hw₁ hvacant₁
  split
  next hagain =>
    apply along_catchOs
    · apply along_bind (sparing_copyfile src dst (numbers_spares hw₁ hn) (hvacant₁ hagain))
      intro _ w₂ _ hfresh
      exact sparing_of_preparing (preparing_retouch src _ _ hfresh)
    · exact fun _ _ => along_pure () trivial
  next => exact along_pure () trivial

theorem sparing_mknod (path : Text) (kind : FileKind) (major minor : Nat)
    (hn : n ≤ w.1.fs.nextIno) :
    Sparing umask n (mknod path kind major minor) (fun _ w' => FreshAt n w'.1.fs path) w := by
  refine ⟨trivial, fun r w' hM => ?_⟩
  obtain ⟨hmade, -, hseen⟩ := hM
  change SparesFs n w w' ∧ FreshAt n w'.1.fs path
  cases hmade with
  | inl heq =>
      rw [heq]
      exact ⟨spares_same (by rw [heq]), Fs.freshAt_missing hseen⟩
  | inr hmade =>
      obtain ⟨a, fs', _, hmk, heq⟩ := hmade
      obtain ⟨loc, hplace, hadds⟩ := Fs.mknod_adds hmk
      rw [SparesFs, heq]
      refine ⟨Fs.spares_mknod hn hmk,
        Fs.freshAt_adds hadds (by simp) (Fs.place_eq_some.mp hplace).1 ?_⟩
      intro ino hino
      cases hino
      exact hn

theorem makeDevice_spares (sb : StatBuf) (path chrootpath : Text) (retain_owner : Bool)
    (hn : n ≤ w.1.fs.nextIno) :
    Sparing umask n (makeDevice sb path chrootpath retain_owner) (fun _ _ => True) w := by
  have hdevice : ∀ kind, Sparing umask n (do
      mknod chrootpath kind (sb.rdev / 256) (sb.rdev % 256)
      copyTimeAndPermissions path chrootpath false retain_owner) (fun _ _ => True) w := by
    intro kind
    apply along_bind (sparing_mknod chrootpath kind _ _ hn)
    intro _ w₁ _ hfresh
    exact sparing_of_preparing (preparing_retouch path _ _ hfresh)
  rw [makeDevice]
  split
  · exact hdevice .chr
  · exact hdevice .blk
  · exact along_pure () trivial

theorem sparing_aside {p : Py α} (hp : Prog.Only Aside p) :
    Sparing umask n p (fun _ _ => True) w := sparing_of_preparing (preparing_only hp)

theorem copyDevice_spares (fuel : Nat) (chroot path : Text) (retain_owner : Bool)
    (hn : n ≤ w.1.fs.nextIno) :
    Sparing umask n (copyDevice fuel chroot path retain_owner) (fun _ _ => True) w := by
  apply along_bind (sparing_of_preparing (createParentPath_prepares fuel chroot (dirname path) _ w))
  intro _ w₁ hw₁ _
  apply along_bind (sparing_of_preparing (preparing_resolve (chroot ++ path) chroot false))
  intro chrootpath w₂ hw₂ _
  have hexists : Prog.Only Aside (exists_ chrootpath) := ⟨trivial, fun _ => trivial⟩
  apply along_bind (sparing_aside hexists)
  intro there w₃ hw₃ _
  split
  · exact along_pure () trivial
  · have hstat : Prog.Only Aside (stat path) := ⟨trivial, fun _ => trivial⟩
    apply along_bind (sparing_aside hstat)
    intro sb w₄ hw₄ _
    have hn₄ : n ≤ w₄.1.fs.nextIno := numbers_spares hw₄
      (numbers_spares hw₃ (numbers_spares hw₂ (numbers_spares hw₁ hn)))
    apply along_handle (makeDevice_spares sb path chrootpath retain_owner hn₄)
    · exact fun _ _ _ _ => along_pure () trivial
    · exact fun _ _ _ => along_pure () trivial

/-- What a recursive call is relied on for. -/
def CopiesSparing (umask n : Nat) (copyFiles : CopyFiles) : Prop :=
  ∀ files o try_glob_matching handledfiles w, o.force_overwrite = false → n ≤ w.1.fs.nextIno →
    Sparing umask n (copyFiles files o try_glob_matching handledfiles) (fun _ _ => True) w

section

variable {copyFiles : CopyFiles} {o : CopyOptions} (hcopy : CopiesSparing umask n copyFiles)
  (hforce : o.force_overwrite = false)

theorem copyEntries_spares {recur : Text → Nat → Py Nat}
    (hrecur : ∀ dir handledfiles w, n ≤ w.1.fs.nextIno →
      Sparing umask n (recur dir handledfiles) (fun _ _ => True) w)
    (fuel : Nat) (chroot dir : Text) (entries files2 : List Text) (handledfiles : Nat) (w : Watch)
    (hn : n ≤ w.1.fs.nextIno) :
    Sparing umask n (copyEntries recur fuel chroot dir o entries files2 handledfiles)
      (fun _ _ => True) w := by
  induction entries generalizing files2 handledfiles w with
  | nil => exact along_pure _ trivial
  | cons entry entries ih =>
      rw [copyEntries]
      apply along_bind (Q := fun _ _ => True)
      · apply along_exceptOs
        · apply along_bind (sparing_aside (cachedlstat_aside .source _ (by simp)))
          intro sbuf w₁ hw₁ _
          split
          · apply along_bind (sparing_of_preparing (createParentPath_prepares fuel chroot _ _ w₁))
            intro _ w₂ hw₂ _
            have hn₂ := numbers_spares hw₂ (numbers_spares hw₁ hn)
            apply along_bind (hrecur (osPathJoin dir entry) handledfiles w₂ hn₂)
            exact fun _ _ _ _ => along_pure _ trivial
          · exact along_pure _ trivial
        · intro e w₁ _
          split
          · exact along_raise _
          · exact along_pure _ trivial
      · intro acc w₁ hw₁ _
        exact ih acc.1 acc.2 w₁ (numbers_spares hw₁ hn)

include hcopy hforce

theorem copyDirRecursive_spares (fuel m : Nat) (chroot dir : Text) (handledfiles : Nat)
    (w : Watch) (hn : n ≤ w.1.fs.nextIno) :
    Sparing umask n (copyDirRecursive copyFiles fuel chroot o m dir handledfiles)
      (fun _ _ => True) w := by
  induction m generalizing dir handledfiles w with
  | zero => exact along_raise _
  | succ m ih =>
      rw [copyDirRecursive]
      have hlist : Prog.Only Aside (listdir dir) := ⟨trivial, fun _ => trivial⟩
      apply along_bind (sparing_aside hlist)
      intro entries w₁ hw₁ _
      have hn₁ := numbers_spares hw₁ hn
      apply along_bind (copyEntries_spares ih fuel chroot dir entries [] handledfiles w₁ hn₁)
      intro acc w₂ hw₂ _
      exact hcopy _ _ _ _ w₂ hforce (numbers_spares hw₂ hn₁)

theorem copyMatching_spares (try_glob_matching : Bool) (file : Text) (errno handledfiles : Nat)
    (w : Watch) (hn : n ≤ w.1.fs.nextIno) :
    Sparing umask n (copyMatching copyFiles o try_glob_matching file errno handledfiles)
      (fun _ _ => True) w := by
  rw [copyMatching]
  split
  · have hglob : Prog.Only Aside (glob file) := ⟨trivial, fun _ => trivial⟩
    apply along_bind (sparing_aside hglob)
    intro ret w₁ hw₁ _
    split
    · exact hcopy _ _ _ _ w₁ hforce (numbers_spares hw₁ hn)
    · exact along_pure _ trivial
  · exact along_pure _ trivial

theorem copySymlink_spares (file chrootrfile : Text) (handledfiles : Nat) (w : Watch)
    (hn : n ≤ w.1.fs.nextIno) :
    Sparing umask n (copySymlink copyFiles o file chrootrfile handledfiles) (fun _ _ => True)
      w := by
  have hread : Prog.Only Aside (readlink .source file) := ⟨trivial, fun _ => trivial⟩
  apply along_bind (sparing_aside hread)
  intro realfile w₁ hw₁ _
  have hlink : Prog.Only Aside (symlink realfile chrootrfile) := ⟨trivial, fun _ => trivial⟩
  apply along_bind (along_exceptOs (sparing_aside hlink) fun _ _ _ => along_pure () trivial)
  intro _ w₂ hw₂ _
  have happend : Prog.Only Aside (listAppend handledfiles file) := ⟨trivial, fun _ => trivial⟩
  apply along_bind (sparing_aside happend)
  intro _ w₃ hw₃ _
  have hn₃ := numbers_spares hw₃ (numbers_spares hw₂ (numbers_spares hw₁ hn))
  cases realfile with
  | nil => exact along_raise _
  | cons c realfile =>
      dsimp only
      split
      · exact hcopy _ _ _ _ w₃ hforce hn₃
      · exact hcopy _ _ _ _ w₃ hforce hn₃

/-- The copy of a regular file is the only one that relies on what was looked at. -/
theorem copyByFormat_spares (fuel : Nat) (chroot file chrootrfile : Text) (sb : StatBuf)
    (handledfiles : Nat) (w : Watch) (hn : n ≤ w.1.fs.nextIno) (hvacant : Vacant w) :
    Sparing umask n (copyByFormat copyFiles fuel chroot o file chrootrfile sb handledfiles)
      (fun _ _ => True) w := by
  rw [copyByFormat]
  split
  · exact copySymlink_spares hcopy hforce file chrootrfile handledfiles w hn
  · exact copyDirRecursive_spares hcopy hforce fuel fuel chroot file handledfiles w hn
  · apply along_bind (copyWithPermissions_spares file chrootrfile _ _ _ hn hvacant)
    intro _ w₁ _ _
    have happend : Prog.Only Aside (listAppend handledfiles file) := ⟨trivial, fun _ => trivial⟩
    apply along_bind (sparing_aside happend)
    exact fun _ _ _ _ => along_pure _ trivial
  · apply along_bind (copyDevice_spares fuel chroot file o.retain_owner hn)
    exact fun _ _ _ _ => along_pure _ trivial
  · apply along_bind (copyDevice_spares fuel chroot file o.retain_owner hn)
    exact fun _ _ _ _ => along_pure _ trivial
  · exact along_pure _ trivial

theorem copyLibs_spares (file : Text) (sb : StatBuf) (handledfiles : Nat) (w : Watch)
    (hn : n ≤ w.1.fs.nextIno) :
    Sparing umask n (copyLibs copyFiles o file sb handledfiles) (fun _ _ => True) w := by
  rw [copyLibs]
  split
  · have hlibs : Prog.Only Aside (lddlistLibraries file) := ⟨trivial, fun _ => trivial⟩
    apply along_bind (sparing_aside hlibs)
    intro libs w₁ hw₁ _
    exact hcopy _ _ _ _ w₁ hforce (numbers_spares hw₁ hn)
  · exact along_pure _ trivial

theorem copyFound_spares (fuel : Nat) (chroot file : Text) (sb : StatBuf) (dest : Dest)
    (handledfiles : Nat) (w : Watch) (hn : n ≤ w.1.fs.nextIno) :
    Sparing umask n (copyFound copyFiles fuel chroot o file sb dest handledfiles)
      (fun _ _ => True) w := by
  rw [copyFound]
  apply along_bind (sparing_of_preparing (createParentPath_prepares fuel chroot (dirname file) _ w))
  intro _ w₁ hw₁ _
  apply along_bind (sparing_of_preparing (preparing_resolve _ chroot false))
  intro chrootrfile w₂ hw₂ _
  apply along_bind (lookAtDest_vacant hforce dest chrootrfile w₂)
  intro dest' w₃ hw₃ hvacant
  have hn₃ := numbers_spares hw₃ (numbers_spares hw₂ (numbers_spares hw₁ hn))
  cases dest' with
  | none => exact along_raise _
  | some chrootsb =>
      dsimp only
      split
      · exact along_pure _ trivial
      next hkeeps =>
        have hvacant₃ := hvacant chrootsb rfl ((Bool.not_eq_true _).mp hkeeps)
        have hdelete : deleteDest o chrootsb chrootrfile = pure () := by
          cases chrootsb with
          | none => rfl
          | some chrootsb => rw [deleteDest, if_neg (by simp [hforce])]
        rw [hdelete]
        apply along_bind (along_pure (R := SparesFs n) (Q := fun _ w' => Vacant w') () hvacant₃)
        intro _ w₄ hw₄ hvacant₄
        have hn₄ := numbers_spares hw₄ hn₃
        apply along_bind (Q := fun _ w' => Vacant w')
          (along_mono (along_related (createParentPath_prepares fuel chroot (dirname file) _ w₄))
            (fun _ hR => hR.spares) fun _ _ hQ => vacant_prepares hQ.1 hvacant₄)
        intro _ w₅ hw₅ hvacant₅
        have hn₅ := numbers_spares hw₅ hn₄
        apply along_bind (copyByFormat_spares hcopy hforce fuel chroot file chrootrfile sb
          handledfiles w₅ hn₅ hvacant₅)
        intro handledfiles w₆ hw₆ _
        have hn₆ := numbers_spares hw₆ hn₅
        apply along_bind (copyLibs_spares hcopy hforce file sb handledfiles w₆ hn₆)
        exact fun _ _ _ _ => along_pure _ trivial

theorem copyOne_spares (fuel : Nat) (chroot : Text) (try_glob_matching : Bool) (file : Text)
    (dest : Dest) (handledfiles : Nat) (w : Watch) (hn : n ≤ w.1.fs.nextIno) :
    Sparing umask n (copyOne copyFiles fuel chroot o try_glob_matching file dest handledfiles)
      (fun _ _ => True) w := by
  rw [copyOne]
  have hcontains : Prog.Only Aside (listContains handledfiles file) := ⟨trivial, fun _ => trivial⟩
  apply along_bind (sparing_aside hcontains)
  intro found w₁ hw₁ _
  have hn₁ := numbers_spares hw₁ hn
  split
  · exact along_pure _ trivial
  · apply along_handle (sparing_aside (cachedlstat_aside .source file (by simp)))
    · intro sb w₂ hw₂ _
      exact copyFound_spares hcopy hforce fuel chroot file sb dest handledfiles w₂
        (numbers_spares hw₂ hn₁)
    · intro e w₂ hw₂
      cases e with
      | osError errno =>
          apply along_bind (copyMatching_spares hcopy hforce try_glob_matching file errno
            handledfiles w₂ (numbers_spares hw₂ hn₁))
          exact fun _ _ _ _ => along_pure _ trivial
      | osErrorText | outsideJail | valueError | nameError | typeError | indexError
      | unboundLocal | memoryError | recursionError => exact along_raise _

theorem copyLoop_spares (fuel : Nat) (chroot : Text) (try_glob_matching : Bool)
    (binarieslist : List Text) (dest : Dest) (handledfiles : Nat) (w : Watch)
    (hn : n ≤ w.1.fs.nextIno) :
    Sparing umask n
      (copyLoop copyFiles fuel chroot o try_glob_matching binarieslist dest handledfiles)
      (fun _ _ => True) w := by
  induction binarieslist generalizing dest handledfiles w with
  | nil => exact along_pure _ trivial
  | cons file binarieslist ih =>
      rw [copyLoop]
      apply along_bind
        (copyOne_spares hcopy hforce fuel chroot try_glob_matching file dest handledfiles w hn)
      intro next w₁ hw₁ _
      exact ih next.1 next.2 w₁ (numbers_spares hw₁ hn)

end

theorem copyBinariesAndLibs_spares (fuel : Nat) (chroot : Text) :
    CopiesSparing umask n (copyBinariesAndLibs fuel chroot) := by
  induction fuel generalizing chroot with
  | zero => exact fun _ _ _ _ _ _ _ => along_raise _
  | succ fuel ih =>
      intro files o try_glob_matching handledfiles w hforce hn
      rw [copyBinariesAndLibs]
      split
      · exact along_raise _
      · exact copyLoop_spares (ih _) hforce _ _ _ _ _ _ w hn

/-- Without force, a run that writes only where it has seen that nothing stands leaves all
that is no directory as it was. -/
theorem copyBinariesAndLibs_keepsExisting {fuel : Nat} {chroot : Text} {files : List Text}
    {o : CopyOptions} {try_glob_matching : Bool} {handledfiles : Nat} {s : World} (L : Loc)
    (hforce : o.force_overwrite = false) (hn : s.fs.Numbered) :
    KeepsExisting umask WritesSeen L
      (copyBinariesAndLibs fuel chroot files o try_glob_matching handledfiles) s := by
  intro r w' hreturns
  have hcopy : CopiesSparing umask s.fs.nextIno (copyBinariesAndLibs fuel chroot) :=
    copyBinariesAndLibs_spares fuel chroot
  have hrun := hcopy files o try_glob_matching handledfiles (s, none) hforce le_rfl
  have hend := Prog.result_of_returns hrun hreturns
  apply untouched_of_spares hn
  cases r with
  | ok ref => exact hend.1
  | error e => exact hend

end

def otherCopy : World :=
  let world := worldOf 0o644 ((["a".toList], .file 1) :: (["b".toList], .file 1) ::
    (["jail".toList, "b".toList], .file 2) :: dirsAt [["jail".toList]])
  { world with fs := world.fs.setInode 2 ⟨.reg, rootAttrs 0o600, "own".toList, 0⟩ }

def watching (answer : World → (c : Call) → Res c × World) (w : Watch) (c : Call) :
    Res c × Watch :=
  ((answer w.1 c).1, (answer w.1 c).2, noteLook w.1 w.2 c (answer w.1 c).1)

def writesSeen (w : Watch) : Call → Bool
  | .copyfile _ dst => (w.1.fs.locate true dst).all fun x => decide (w.2 = some x)
  | .mknod path _ _ _ => (w.1.fs.lookup true path).isNone
  | _ => true

def executeSeen (umask : Nat) (w : Watch) (c : Call) : Option (Res c × Watch) :=
  if writesSeen w c then some (watching (execute umask) w c) else none

theorem watched_executeSeen (umask : Nat) (w : Watch) (c : Call) (r : Res c) (w' : Watch)
    (h : executeSeen umask w c = some (r, w')) : Watched umask WritesSeen w c r w' := by
  simp only [executeSeen, Option.ite_none_right_eq_some, Option.some.injEq] at h
  obtain ⟨hseen, heq⟩ := h
  cases heq
  refine ⟨posix_execute umask w.1 c, rfl, ?_⟩
  cases c with
  | copyfile src dst =>
      intro x hx
      simpa [writesSeen, hx] using hseen
  | mknod path kind major minor => simpa [writesSeen, WritesSeen] using hseen
  | _ => trivial

theorem copyBinariesAndLibs_keepsExisting_sample :
    ∃ r w', Prog.Returns (Watched 0o022 WritesSeen)
        (copyBinariesAndLibs 9 "/jail".toList ["/a".toList, "/b".toList] (defaultOptions false)
          false 0) (otherCopy, none) (.ok r) w' ∧
      Untouched ["jail".toList] otherCopy.fs w'.1.fs := by
  have hrun : ((copyBinariesAndLibs 9 "/jail".toList ["/a".toList, "/b".toList]
      (defaultOptions false) false 0).finish (executeSeen 0o022) (otherCopy, none)).any
        (fun x => returnsOk x.1) = true := by decide +kernel
  obtain ⟨r, w', hret, hcheck⟩ := Prog.returns_of_any (watched_executeSeen 0o022) hrun
  have hn : otherCopy.fs.Numbered := by
    apply Fs.numbered_of_nodes
    intro x ino hmem
    simp only [otherCopy, worldOf, Fs.setInode, dirsAt, List.map_cons, List.map_nil,
      List.mem_cons, List.not_mem_nil, Prod.mk.injEq, Entry.file.injEq] at hmem
    obtain ⟨-, rfl⟩ | ⟨-, rfl⟩ | ⟨-, rfl⟩ | h := hmem
    · decide
    · decide
    · decide
    · simp at h
  cases r with
  | error e => cases hcheck
  | ok ref => exact ⟨ref, w', hret, copyBinariesAndLibs_keepsExisting _ rfl hn _ w' hret⟩

/-- The look at the copy of `b` fails with an error that is not `ENOENT`. -/
def executeHidden (umask : Nat) (s : World) : (c : Call) → Res c × World
  | .lstat .dest path =>
      if path = "/jail/b".toList then (.error (.osError 5), s)
      else execute umask s (.lstat .dest path)
  | c => execute umask s c

theorem posix_executeHidden (umask : Nat) (s : World) (c : Call) :
    posix umask s c (executeHidden umask s c).1 (executeHidden umask s c).2 := by
  cases c with
  | lstat use path =>
      cases use with
      | dest =>
          rw [executeHidden]
          split
          · exact ⟨⟨5, rfl, fun h => by cases h⟩, rfl⟩
          · exact posix_execute umask s _
      | source | parent | walk _ => exact posix_execute umask s _
  | _ => exact posix_execute umask s _

/-- The flag says of `b` what it has said of `a`, and the file of the jail is overwritten. -/
theorem copyBinariesAndLibs_overwrites :
    (∀ x t, otherCopy.fs.entry x ≠ some (.symlink t)) ∧
      ¬ KeepsExisting 0o022 (fun _ _ _ => True) ["jail".toList]
        (copyBinariesAndLibs 9 "/jail".toList ["/a".toList, "/b".toList] (defaultOptions true)
          false 0) otherCopy := by
  refine ⟨fun x t hlink => ?_, fun hkeeps => ?_⟩
  · have hmem := Fs.symlink_mem_nodes hlink
    simp [otherCopy, worldOf, Fs.setInode, dirsAt] at hmem
  · have hrun : ((copyBinariesAndLibs 9 "/jail".toList ["/a".toList, "/b".toList]
        (defaultOptions true) false 0).finish
          (fun w c => some (watching (executeHidden 0o022) w c)) (otherCopy, none)).any
          (fun x => decide ((x.2.1.fs.inode 2).content = [])) = true := by decide +kernel
    obtain ⟨r, w', hret, hcheck⟩ := Prog.returns_of_any
      (M := Watched 0o022 fun _ _ _ => True) (fun w c r w' h => by
        cases h
        exact ⟨posix_executeHidden 0o022 w.1 c, rfl, trivial⟩) hrun
    have hthere : otherCopy.fs.entry ["jail".toList, "b".toList] = some (.file 2) := by
      decide +kernel
    have hold : (otherCopy.fs.inode 2).content = "own".toList := rfl
    have hsame := (hkeeps r w' hret _ _ (List.prefix_append ["jail".toList] ["b".toList]) hthere
      (by simp)).2 2 rfl
    rw [decide_eq_true_eq, hsame, hold] at hcheck
    cases hcheck

end Jailkit.Tools
