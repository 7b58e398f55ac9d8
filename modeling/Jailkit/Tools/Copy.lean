import Jailkit.Tools.MoveDir
import Mathlib.Data.List.Infix

/-!
`create_parent_path`, `copy_binaries_and_libs` and the functions of jk_lib.py they are made
of. The fuel is Python's recursion limit, and a list object is a number: 0 is the one that
`handledfiles` has by default.
-/
namespace Jailkit.Tools

open JkLib Raising

structure CopyOptions where
  force_overwrite : Bool
  check_libs : Bool
  try_hardlink : Bool
  allow_suid : Bool
  retain_owner : Bool
  deriving DecidableEq, Repr

def exceptOs {α : Type} (p : Py α) (handler : Exn → Py α) : Py α := do
  match ← attempt p with
  | .ok a => pure a
  | .error (.osError errno) => handler (.osError errno)
  | .error .osErrorText => handler .osErrorText
  | .error e => raise e

theorem along_exceptOs {α σ : Type} {M : Prog.Machine Call Res σ} {G : σ → Call → Prop}
    {R : σ → σ → Prop} [Std.Refl R] [IsTrans σ R] {p : Py α} {handler : Exn → Py α}
    {Q : α → σ → Prop} {s : σ} (hp : Along M G R p Q s)
    (hh : ∀ e s', R s s' → Along M G R (handler e) Q s') :
    Along M G R (exceptOs p handler) Q s := by
  apply along_handle hp
  · exact fun a s' _ ha => along_pure a ha
  · intro e s' hR
    cases e with
    | osError _ | osErrorText => exact hh _ s' hR
    | outsideJail | valueError | nameError | typeError | indexError | unboundLocal
    | memoryError | recursionError => exact along_raise _

def exceptAll (p : Py Unit) (handler : Py Unit) : Py Unit := do
  match ← attempt p with
  | .ok _ => pure ()
  | .error _ => handler

/-- The answer is cached if there is one. -/
def cachedlstat (use : Use) (path : Text) : Py StatBuf := do
  match ← cacheGet use path with
  | some ret => pure ret
  | none => do
      let ret ← lstat use path
      cacheSet path ret
      pure ret

/-- `split_path` of a path that is not absolute goes on until the memory is used up. -/
def split (path : Text) : Py (List Text) :=
  match splitPath path with
  | some spath => pure spath
  | none => raise .memoryError

/-- `tmp[:len(chroot)] != chroot` for a jail that has a name. -/
def pointsOutside (chroot tmp : Text) : Bool :=
  decide (chroot ≠ []) && decide (tmp.take chroot.length ≠ chroot)

/-- Where the code takes a symlink at `ret` to lead. -/
def landing (chroot ret realpath : Text) : Text :=
  if realpath.head? = some '/' then normpath (chroot ++ realpath)
  else normpath (osPathJoin (dirname ret) realpath)

def follow (chroot ret realpath : Text) : Py Text :=
  match realpath with
  | [] => raise .indexError
  | c :: _ =>
      if c ≠ '/' ∧ pointsOutside chroot (landing chroot ret realpath) = true then
        raise .outsideJail
      else pure (landing chroot ret realpath)

def resolveLoop (include_file : Bool) (chroot : Text) : Text → List Text → Py Text
  | ret, [] => pure ret
  | ret, entry :: spath => do
      let sb ← cachedlstat (.walk include_file) (osPathJoin ret entry)
      if sb.format = .lnk then do
        let realpath ← readlink (.walk include_file) (osPathJoin ret entry)
        let ret ← follow chroot (osPathJoin ret entry) realpath
        resolveLoop include_file chroot ret spath
      else
        resolveLoop include_file chroot (osPathJoin ret entry) spath

def resolveRealpath (path chroot : Text) (include_file : Bool) : Py Text :=
  if path = ['/'] then pure ['/']
  else do
    let spath ← split path
    if include_file then do
      let ret ← resolveLoop true chroot ['/'] spath
      pure (osPathJoin ret [])
    else
      match spath.getLast? with
      | none => raise .indexError
      | some basename => do
          let ret ← resolveLoop false chroot ['/'] spath.dropLast
          pure (osPathJoin ret basename)

/-- The first loop of `create_parent_path`: how far the path exists in the jail, the names
that have been followed and those that are left. -/
def followExisting (chroot : Text) :
    Text → List Text → List Text → Py (Text × List Text × List Text)
  | existpath, done, [] => pure (existpath, done, [])
  | existpath, done, entry :: spath => do
      if ← exists_ (osPathJoin existpath entry) then do
        let tmp ← resolveRealpath (osPathJoin existpath entry) chroot true
        if ← exists_ tmp then followExisting chroot tmp (done ++ [entry]) spath
        else pure (existpath, done, entry :: spath)
      else
        pure (existpath, done, entry :: spath)

structure ParentOptions where
  copy_permissions : Bool
  allow_suid : Bool
  copy_ownership : Bool
  deriving DecidableEq, Repr

/-- The handler of a failed `copy_time_and_permissions` uses names that are not defined. -/
def copyParentPermissions (o : ParentOptions) (origpath jailpath : Text) : Py Unit :=
  if o.copy_permissions then
    catchOs (copyTimeAndPermissions origpath jailpath o.allow_suid o.copy_ownership)
      (raise .nameError)
  else pure ()

/-- One missing name, for the `create_parent_path` that is called for a symlink's target. -/
def createParent (recur : Text → Py (Option Text)) (chroot : Text) (o : ParentOptions)
    (origpath jailpath : Text) (sb : StatBuf) : Py (Option Text) :=
  match sb.format with
  | .dir => do
      mkdir jailpath 0o755
      copyParentPermissions o origpath jailpath
      pure (some jailpath)
  | .lnk => do
      let realfile ← readlink .parent origpath
      symlink realfile jailpath
      match realfile with
      | [] => raise .indexError
      | c :: _ =>
          if c = '/' then recur realfile
          else
            let tmp := normpath (osPathJoin (dirname jailpath) realfile)
            if pointsOutside chroot tmp then raise .outsideJail
            else recur (tmp.drop chroot.length)
  | _ => pure (some jailpath)

/-- The second loop; a path that could not be made is `None`, which cannot be joined. -/
def createMissing (recur : Text → Py (Option Text)) (chroot : Text) (o : ParentOptions) :
    Option Text → List Text → List Text → Py (Option Text)
  | existpath, _, [] => pure existpath
  | none, _, _ :: _ => raise .typeError
  | some existpath, done, entry :: spath => do
      let sb ← catchOs (some <$> cachedlstat .parent (joinPath (done ++ [entry]))) (pure none)
      match sb with
      | none => pure none
      | some sb => do
          let existpath ← createParent recur chroot o (joinPath (done ++ [entry]))
            (osPathJoin existpath entry) sb
          createMissing recur chroot o existpath (done ++ [entry]) spath

def createParentPath : Nat → Text → Text → ParentOptions → Py (Option Text)
  | 0, _, _, _ => raise .recursionError
  | n + 1, chroot, path, o => do
      let spath ← split path
      let (existpath, done, left) ← followExisting chroot chroot [] spath
      createMissing (fun realfile => createParentPath n chroot realfile o) chroot o
        (some existpath) done left

def tryLink (try_hardlink : Bool) (src dst : Text) : Py Bool :=
  if try_hardlink then do
    match ← attempt (link src dst) with
    | .ok _ => pure false
    | .error _ => pure true
  else pure true

def copyWithPermissions (src dst : Text) (try_hardlink allow_suid retain_owner : Bool) :
    Py Unit := do
  let do_normal_copy ← tryLink try_hardlink src dst
  if do_normal_copy then
    catchOs (do
      copyfile src dst
      copyTimeAndPermissions src dst allow_suid retain_owner) (pure ())
  else
    pure ()

def makeDevice (sb : StatBuf) (path chrootpath : Text) (retain_owner : Bool) : Py Unit :=
  match sb.format with
  | .chr => do
      mknod chrootpath .chr (sb.rdev / 256) (sb.rdev % 256)
      copyTimeAndPermissions path chrootpath false retain_owner
  | .blk => do
      mknod chrootpath .blk (sb.rdev / 256) (sb.rdev % 256)
      copyTimeAndPermissions path chrootpath false retain_owner
  | _ => pure ()

def copyDevice (fuel : Nat) (chroot path : Text) (retain_owner : Bool) : Py Unit := do
  let _ ← createParentPath fuel chroot (dirname path) ⟨true, false, false⟩
  let chrootpath ← resolveRealpath (chroot ++ path) chroot false
  if ← exists_ chrootpath then pure ()
  else do
    let sb ← stat path
    exceptAll (makeDevice sb path chrootpath retain_owner) (pure ())

/-- A recursive call of `copy_binaries_and_libs`: the files, the options, whether patterns
are matched, and the list of the files that have been handled. -/
abbrev CopyFiles := List Text → CopyOptions → Bool → Nat → Py Nat

def parentOptions (o : CopyOptions) : ParentOptions := ⟨true, o.allow_suid, o.retain_owner⟩

/-- The loop of `copy_dir_recursive` over the entries; `files2` is what it leaves to
`copy_binaries_and_libs`. -/
def copyEntries (recur : Text → Nat → Py Nat) (fuel : Nat) (chroot dir : Text)
    (o : CopyOptions) : List Text → List Text → Nat → Py (List Text × Nat)
  | [], files2, handledfiles => pure (files2, handledfiles)
  | entry :: entries, files2, handledfiles => do
      let (files2, handledfiles) ← exceptOs (do
        let sbuf ← cachedlstat .source (osPathJoin dir entry)
        if sbuf.format = .dir then do
          let _ ← createParentPath fuel chroot (osPathJoin dir entry) (parentOptions o)
          let handledfiles ← recur (osPathJoin dir entry) handledfiles
          pure (files2, handledfiles)
        else
          pure (files2 ++ [osPathJoin dir entry], handledfiles)) fun e =>
            -- the message needs the text of the error
            if e = .osErrorText then raise .typeError else pure (files2, handledfiles)
      copyEntries recur fuel chroot dir o entries files2 handledfiles

/-- `copy_dir_recursive`. The list of handled files is passed on in the place of
`try_glob_matching`, so the files are checked against the default list. -/
def copyDirRecursive (copyFiles : CopyFiles) (fuel : Nat) (chroot : Text) (o : CopyOptions) :
    Nat → Text → Nat → Py Nat
  | 0, _, _ => raise .recursionError
  | n + 1, dir, handledfiles => do
      let entries ← listdir dir
      let (files2, _) ← copyEntries (copyDirRecursive copyFiles fuel chroot o n) fuel chroot dir
        o entries [] handledfiles
      copyFiles files2 o false 0

/-- A source file that is missing may be a pattern. -/
def copyMatching (copyFiles : CopyFiles) (o : CopyOptions) (try_glob_matching : Bool)
    (file : Text) (errno handledfiles : Nat) : Py Nat :=
  if errno = ENOENT ∧ try_glob_matching = true then do
    let ret ← glob file
    if ret ≠ [] then copyFiles ret { o with allow_suid := false } false handledfiles
    else pure handledfiles
  else pure handledfiles

/-- `chrootfile_exists` with `chrootsb`, or `none` while they are not bound. -/
abbrev Dest := Option (Option StatBuf)

/-- An error other than a missing file leaves the variables of the round before. -/
def lookAtDest (dest : Dest) (chrootrfile : Text) : Py Dest := do
  match ← attempt (cachedlstat .dest chrootrfile) with
  | .ok chrootsb => pure (some (some chrootsb))
  | .error (.osError errno) => if errno = ENOENT then pure (some none) else pure dest
  | .error .osErrorText => raise .typeError
  | .error e => raise e

def keepsDest (o : CopyOptions) : Option StatBuf → Bool
  | some chrootsb => !o.force_overwrite && chrootsb.format ≠ .dir
  | none => false

/-- The handler of a failed `unlink` uses a name that is not defined. -/
def deleteDest (o : CopyOptions) (chrootsb : Option StatBuf) (chrootrfile : Text) : Py Unit :=
  match chrootsb with
  | some chrootsb =>
      if o.force_overwrite = true ∧ chrootsb.format = .reg then
        exceptOs (unlink chrootrfile) fun _ => raise .nameError
      else pure ()
  | none => pure ()

/-- A symlink is copied, and then what it leads to. -/
def copySymlink (copyFiles : CopyFiles) (o : CopyOptions) (file chrootrfile : Text)
    (handledfiles : Nat) : Py Nat := do
  let realfile ← readlink .source file
  exceptOs (symlink realfile chrootrfile) fun _ => pure ()
  listAppend handledfiles file
  match realfile with
  | [] => raise .indexError
  | c :: _ =>
      if c = '/' then copyFiles [realfile] o false 0
      else copyFiles [normpath (osPathJoin (dirname file) realfile)] o false 0

def copyByFormat (copyFiles : CopyFiles) (fuel : Nat) (chroot : Text) (o : CopyOptions)
    (file chrootrfile : Text) (sb : StatBuf) (handledfiles : Nat) : Py Nat :=
  match sb.format with
  | .lnk => copySymlink copyFiles o file chrootrfile handledfiles
  | .dir => copyDirRecursive copyFiles fuel chroot o fuel file handledfiles
  | .reg => do
      copyWithPermissions file chrootrfile o.try_hardlink o.allow_suid o.retain_owner
      listAppend handledfiles file
      pure handledfiles
  | .chr | .blk => do
      copyDevice fuel chroot file o.retain_owner
      pure handledfiles
  | .other => pure handledfiles

def anyoneExecutes : Nat := 0o111

def mayHaveLibs (file : Text) (sb : StatBuf) : Bool :=
  decide ("lib".toList <:+: file) || decide (".so".toList <:+: file) ||
    decide (sb.attrs.mode &&& anyoneExecutes ≠ 0)

def copyLibs (copyFiles : CopyFiles) (o : CopyOptions) (file : Text) (sb : StatBuf)
    (handledfiles : Nat) : Py Nat :=
  if o.check_libs = true ∧ mayHaveLibs file sb = true then do
    let libs ← lddlistLibraries file
    copyFiles libs ⟨o.force_overwrite, false, o.try_hardlink, false, false⟩ false handledfiles
  else pure handledfiles

def copyFound (copyFiles : CopyFiles) (fuel : Nat) (chroot : Text) (o : CopyOptions)
    (file : Text) (sb : StatBuf) (dest : Dest) (handledfiles : Nat) : Py (Dest × Nat) := do
  let _ ← createParentPath fuel chroot (dirname file) (parentOptions o)
  let chrootrfile ← resolveRealpath (normpath (chroot ++ '/' :: file)) chroot false
  let dest ← lookAtDest dest chrootrfile
  match dest with
  | none => raise .unboundLocal
  | some chrootsb =>
      if keepsDest o chrootsb then pure (dest, handledfiles)
      else do
        deleteDest o chrootsb chrootrfile
        let _ ← createParentPath fuel chroot (dirname file) (parentOptions o)
        let handledfiles ← copyByFormat copyFiles fuel chroot o file chrootrfile sb handledfiles
        let handledfiles ← copyLibs copyFiles o file sb handledfiles
        pure (dest, handledfiles)

def copyOne (copyFiles : CopyFiles) (fuel : Nat) (chroot : Text) (o : CopyOptions)
    (try_glob_matching : Bool) (file : Text) (dest : Dest) (handledfiles : Nat) :
    Py (Dest × Nat) := do
  if ← listContains handledfiles file then pure (dest, handledfiles)
  else do
    match ← attempt (cachedlstat .source file) with
    | .ok sb => copyFound copyFiles fuel chroot o file sb dest handledfiles
    | .error (.osError errno) => do
        let handledfiles ← copyMatching copyFiles o try_glob_matching file errno handledfiles
        pure (dest, handledfiles)
    | .error .osErrorText => raise .typeError
    | .error e => raise e

def copyLoop (copyFiles : CopyFiles) (fuel : Nat) (chroot : Text) (o : CopyOptions)
    (try_glob_matching : Bool) : List Text → Dest → Nat → Py Nat
  | [], _, handledfiles => pure handledfiles
  | file :: binarieslist, dest, handledfiles => do
      let (dest, handledfiles) ←
        copyOne copyFiles fuel chroot o try_glob_matching file dest handledfiles
      copyLoop copyFiles fuel chroot o try_glob_matching binarieslist dest handledfiles

/-- `chroot[:-1]` after a slash at the end. -/
def stripLast (chroot : Text) : Text :=
  if chroot.getLast? = some '/' then chroot.dropLast else chroot

def copyBinariesAndLibs : Nat → Text → CopyFiles
  | 0, _ => fun _ _ _ _ => raise .recursionError
  | n + 1, chroot => fun binarieslist o try_glob_matching handledfiles =>
      if chroot = [] then raise .indexError
      else
        copyLoop (copyBinariesAndLibs n (stripLast chroot)) n (stripLast chroot) o
          try_glob_matching binarieslist none handledfiles

def Looks : Call → Prop
  | .cacheGet _ _ | .cacheSet _ _ | .listContains _ _ | .listAppend _ _ | .lstat _ _ | .stat _
  | .exists _ | .islink _ | .readlink _ _ | .listdir _ | .scandir _ | .glob _
  | .lddlistLibraries _ | .lstatSize _ | .openRead _ => True
  | _ => False

theorem posix_looks {umask : Nat} {s s' : World} {c : Call} {r : Res c} (hc : Looks c)
    (h : posix umask s c r s') : s'.fs = s.fs := by
  cases posix_does h with
  | inl hsame => exact hsame
  | inr hdoes =>
      cases c with
      | mkdir _ _ | symlink _ _ | link _ _ | copyfile _ _ | writeFile _ _ _ | utime _ _ _
      | chown _ _ _ | chmod _ _ | unlink _ | mknod _ _ _ _ | rmtree _ => exact hc.elim
      | _ => exact hdoes.elim

def FindsWay : Call → Prop
  | .cacheGet (.walk _) _ | .cacheSet _ _ | .lstat (.walk _) _ | .readlink (.walk _) _
  | .exists _ => True
  | _ => False

theorem looks_of_findsWay {c : Call} (h : FindsWay c) : Looks c := by
  cases c with
  | cacheGet _ _ | cacheSet _ _ | lstat _ _ | readlink _ _ | «exists» _ => trivial
  | _ => exact h.elim

theorem cachedlstat_only {P : Call → Prop} {use : Use} {path : Text} (hget : P (.cacheGet use path))
    (hlstat : P (.lstat use path)) (hset : ∀ buf, P (.cacheSet path buf)) :
    Prog.Only P (cachedlstat use path) := by
  refine only_bind ⟨hget, fun _ => trivial⟩ fun found => ?_
  cases found with
  | some ret => exact trivial
  | none =>
      refine only_bind ⟨hlstat, fun _ => trivial⟩ fun ret => ?_
      exact only_bind ⟨hset ret, fun _ => trivial⟩ fun _ => trivial

theorem cachedlstat_looks (use : Use) (path : Text) : Prog.Only Looks (cachedlstat use path) :=
  cachedlstat_only trivial trivial fun _ => trivial

theorem split_only {P : Call → Prop} (path : Text) : Prog.Only P (split path) := by
  rw [split]
  split
  · exact trivial
  · exact trivial

theorem follow_only {P : Call → Prop} (chroot ret realpath : Text) :
    Prog.Only P (follow chroot ret realpath) := by
  cases realpath with
  | nil => exact trivial
  | cons c realpath =>
      rw [follow]
      split
      · exact trivial
      · exact trivial

theorem resolveLoop_findsWay (include_file : Bool) (chroot ret : Text) (spath : List Text) :
    Prog.Only FindsWay (resolveLoop include_file chroot ret spath) := by
  induction spath generalizing ret with
  | nil => exact trivial
  | cons entry spath ih =>
      rw [resolveLoop]
      refine only_bind (cachedlstat_only trivial trivial fun _ => trivial) fun sb => ?_
      split
      · refine only_bind ⟨trivial, fun _ => trivial⟩ fun realpath => ?_
        exact only_bind (follow_only _ _ _) fun ret => ih ret
      · exact ih _

theorem resolveRealpath_findsWay (path chroot : Text) (include_file : Bool) :
    Prog.Only FindsWay (resolveRealpath path chroot include_file) := by
  rw [resolveRealpath]
  split
  · exact trivial
  · refine only_bind (split_only path) fun spath => ?_
    cases include_file with
    | true => exact only_bind (resolveLoop_findsWay _ _ _ _) fun _ => trivial
    | false =>
        simp only [Bool.false_eq_true, if_false]
        split
        · exact trivial
        · exact only_bind (resolveLoop_findsWay _ _ _ _) fun _ => trivial

theorem followExisting_findsWay (chroot existpath : Text) (done spath : List Text) :
    Prog.Only FindsWay (followExisting chroot existpath done spath) := by
  induction spath generalizing existpath done with
  | nil => exact trivial
  | cons entry spath ih =>
      rw [followExisting]
      refine only_bind ⟨trivial, fun _ => trivial⟩ fun found => ?_
      split
      · refine only_bind (resolveRealpath_findsWay _ _ _) fun tmp => ?_
        refine only_bind ⟨trivial, fun _ => trivial⟩ fun found => ?_
        split
        · exact ih _ _
        · exact trivial
      · exact trivial

theorem resolveRealpath_looks (path chroot : Text) (include_file : Bool) :
    Prog.Only Looks (resolveRealpath path chroot include_file) :=
  Prog.only_mono (resolveRealpath_findsWay path chroot include_file) fun _ => looks_of_findsWay

theorem followExisting_looks (chroot existpath : Text) (done spath : List Text) :
    Prog.Only Looks (followExisting chroot existpath done spath) :=
  Prog.only_mono (followExisting_findsWay chroot existpath done spath) fun _ => looks_of_findsWay

theorem lookAtDest_only {P : Call → Prop} (dest : Dest) {chrootrfile : Text}
    (hget : P (.cacheGet .dest chrootrfile)) (hlstat : P (.lstat .dest chrootrfile))
    (hset : ∀ buf, P (.cacheSet chrootrfile buf)) : Prog.Only P (lookAtDest dest chrootrfile) := by
  refine only_bind (only_attempt (cachedlstat_only hget hlstat hset)) fun r => ?_
  split
  · exact trivial
  · split
    · exact trivial
    · exact trivial
  · exact trivial
  · exact trivial

theorem lookAtDest_looks (dest : Dest) (chrootrfile : Text) :
    Prog.Only Looks (lookAtDest dest chrootrfile) :=
  lookAtDest_only dest trivial trivial fun _ => trivial

end Jailkit.Tools
