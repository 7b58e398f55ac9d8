import Jailkit.Check.Exempt
import Jailkit.Tools.Calls
import Mathlib.Data.List.Infix

/-!
The walk of jk_check through a jail: what is tested there, and what is left out.
-/
namespace Jailkit.Check

open Tools (StatBuf statPath statOf)
open Fs (ValidName pathOf)

def S_IXUSR : Nat := 0o100
def S_IXGRP : Nat := 0o10
def S_IXOTH : Nat := 0o1

structure Config where
  verbose : Bool
  ignorepathoncompare : List Text
  ignoresetuidexecuteforuser : List Text
  ignoresetuidexecuteforgroup : List Text
  ignoresetuidexecuteforothers : List Text
  ignorewritableforothers : List Text
  ignorewritableforgroup : List Text
  ignorepatheverywhere : List Text

/-- What the system answers; `none` is an `OSError`. -/
structure Os where
  exists_ : Text → Bool
  lstat : Text → Option StatBuf
  listdir : Text → Option (List Text)
  isfile : Text → Bool
  isdir : Text → Bool
  islink : Text → Bool

/-- What is printed, with the subject of a warning apart, and which tests of files begin. -/
inductive Event where
  | warning (path what : Text)
  | print (line : Text)
  | stderr (line : Text)
  | comparefiles (first second : Text)
  | testfilepermissions (path : Text)
  deriving DecidableEq, Repr

def Config.verbosely (config : Config) (line : Text) : List Event :=
  if config.verbose then [.print line] else []

def warnIf (warn : Bool) (path : Text) (what : Text) : List Event :=
  if warn then [.warning path what] else []

def cannotLstat (path : Text) : Event := .stderr ("ERROR: cannot lstat() ".toList ++ path)

/-- A setuid program of root that some class of users may execute. -/
def testfilepermissions (os : Os) (config : Config) (path : Text) : List Event :=
  .testfilepermissions path ::
    match os.lstat path with
    | none => [cannotLstat path]
    | some statbuf =>
        let mode := statbuf.attrs.mode
        config.verbosely ("testing file permissions for ".toList ++ path) ++
          if (statbuf.attrs.uid = 0 ∨ statbuf.attrs.gid = 0) ∧
              (mode &&& S_ISUID ≠ 0 ∨ mode &&& S_ISGID ≠ 0) then
            warnIf (mode &&& S_IXOTH ≠ 0 && !fileInList config.ignoresetuidexecuteforothers path)
                path " is executable for others and setuid root!!".toList ++
              (warnIf (mode &&& S_IXGRP ≠ 0 && !fileInList config.ignoresetuidexecuteforgroup path)
                path " is executable for group and setuid root!!".toList ++
              warnIf (mode &&& S_IXUSR ≠ 0 && !fileInList config.ignoresetuidexecuteforuser path)
                path " is executable for user and setuid root!!".toList)
          else []

def writableForOthers : Text := " is writable for others!".toList

def testdirpermissions (os : Os) (config : Config) (path : Text) : List Event :=
  match os.lstat path with
  | none => [cannotLstat path]
  | some statbuf =>
      let mode := statbuf.attrs.mode
      config.verbosely ("testing directory permissions for ".toList ++ path) ++
        (warnIf (mode &&& S_IWOTH ≠ 0 && !filebasedirInList config.ignorewritableforothers path)
          path writableForOthers ++
        warnIf (mode &&& S_IWGRP ≠ 0 && !filebasedirInList config.ignorewritableforgroup path)
          path " is writable for group!".toList)

def testEntry (recur : Text → Option (List Event)) (os : Os) (config : Config)
    (chroothome path f : Text) : Option (List Event) :=
  let chrootpath := chroothome ++ path ++ f
  if filebasedirInList config.ignorepatheverywhere chrootpath then some []
  else if os.isfile chrootpath then
    some ((if filebasedirInList config.ignorepathoncompare chrootpath then []
      else [.comparefiles chrootpath ('/' :: path ++ f)]) ++ testfilepermissions os config chrootpath)
  else if os.isdir chrootpath && !os.islink chrootpath then recur (path ++ f ++ ['/'])
  else some (config.verbosely ("ignoring path ".toList ++ chrootpath))

def testEntries (recur : Text → Option (List Event)) (os : Os) (config : Config)
    (chroothome path : Text) : List Text → Option (List Event)
  | [] => some []
  | f :: files =>
      (testEntry recur os config chroothome path f).bind fun out =>
        (testEntries recur os config chroothome path files).map fun rest => out ++ rest

/-- `testchrootfiles`; the fuel is Python's recursion limit, and `none` the exception there. -/
def testchrootfiles (os : Os) (config : Config) (chroothome : Text) :
    Nat → Text → Option (List Event)
  | 0, _ => none
  | n + 1, path =>
      if !os.exists_ (chroothome ++ path) then
        some [.print ("cannot check files in ".toList ++ chroothome ++ path ++
          ", is does not exist".toList)]
      else
        match os.listdir (chroothome ++ path) with
        | none => some (testdirpermissions os config (chroothome ++ path) ++
            [.print ("ERROR, failed to test any files in ".toList ++ chroothome ++ path)])
        | some files =>
            (testEntries (testchrootfiles os config chroothome n) os config chroothome path
              files).map fun out => testdirpermissions os config (chroothome ++ path) ++ out

/-- The configuration that `activateConfig` takes from the options of a section. -/
def sectionConfig (get : Text → Option Text) (verbose : Bool) : Config where
  verbose := verbose
  ignorepathoncompare := getListOption (get "ignorepathoncompare".toList)
  ignoresetuidexecuteforuser := getListOption (get "ignoresetuidexecuteforuser".toList)
  ignoresetuidexecuteforgroup := getListOption (get "ignoresetuidexecuteforgroup".toList)
  ignoresetuidexecuteforothers := getListOption (get "ignoresetuidexecuteforothers".toList)
  ignorewritableforothers := getListOption (get "ignorewritableforothers".toList)
  ignorewritableforgroup := getListOption (get "ignorewritableforgroup".toList)
  ignorepatheverywhere := getListOption (get "ignorepatheverywhere".toList)

/-- `chrootdir` of `activateConfig`. -/
def chrootdir (section_ : Text) : Text :=
  if section_.getLast? ≠ some '/' then section_ ++ ['/'] else section_

def testSection (os : Os) (get : Text → Option Text) (verbose : Bool) (fuel : Nat)
    (section_ : Text) : Option (List Event) :=
  testchrootfiles os (sectionConfig get verbose) (chrootdir section_) fuel []

/-- The system answers with what stands in the file system. -/
structure Shows (os : Os) (fs : Fs) : Prop where
  exists_eq : ∀ path, os.exists_ path = (fs.lookup true path).isSome
  lstat_eq : ∀ path, os.lstat path = statPath fs false path
  lists : ∀ path names, os.listdir path = some names →
    ∃ loc, fs.locate true path = some loc ∧ fs.entry loc = some .dir ∧ fs.Lists loc names
  listdir_dir : ∀ path, fs.lookup true path = some .dir → (os.listdir path).isSome
  isfile_iff : ∀ path, os.isfile path = true ↔
    ∃ ino, fs.lookup true path = some (.file ino) ∧ (fs.inode ino).kind = .reg
  isdir_iff : ∀ path, os.isdir path = true ↔ fs.lookup true path = some .dir
  islink_iff : ∀ path, os.islink path = true ↔ ∃ t, fs.lookup false path = some (.symlink t)

def dirPath (dir : Text) (names : List Text) : Text :=
  if names = [] then dir else pathOf dir names ++ ['/']

/-- The output has a warning for each directory that others can write to, and the test of
each regular file, but for the paths that the lists exempt. -/
structure Audits (exempt : List Text → Text → Prop) (config : Config) (fs : Fs) (dir : Text)
    (L : Loc) (out : List Event) : Prop where
  dirs : ∀ names, (∀ n ∈ names, ValidName n) → fs.entry (L ++ names) = some .dir →
    (fs.dirAttrs (L ++ names)).mode &&& S_IWOTH ≠ 0 →
    ¬ exempt config.ignorewritableforothers (dirPath dir names) →
    ¬ exempt config.ignorepatheverywhere (dirPath dir names) →
    .warning (dirPath dir names) writableForOthers ∈ out
  files : ∀ names ino, (∀ n ∈ names, ValidName n) → fs.entry (L ++ names) = some (.file ino) →
    (fs.inode ino).kind = .reg → ¬ exempt config.ignorepatheverywhere (pathOf dir names) →
    .testfilepermissions (pathOf dir names) ∈ out

theorem audits_mono {exempt exempt' : List Text → Text → Prop} {config : Config} {fs : Fs}
    {dir : Text} {L : Loc} {out : List Event} (h : Audits exempt config fs dir L out)
    (hothers : ∀ path, exempt config.ignorewritableforothers path →
      exempt' config.ignorewritableforothers path)
    (heverywhere : ∀ path, exempt config.ignorepatheverywhere path →
      exempt' config.ignorepatheverywhere path) : Audits exempt' config fs dir L out where
  dirs names hvalid hentry hmode hnot hnot' :=
    h.dirs names hvalid hentry hmode (fun hex => hnot (hothers _ hex))
      fun hex => hnot' (heverywhere _ hex)
  files names ino hvalid hentry hkind hnot :=
    h.files names ino hvalid hentry hkind fun hex => hnot (heverywhere _ hex)

/-- What the plain comparison of strings exempts. -/
def Skips (thelist : List Text) (path : Text) : Prop := filebasedirInList thelist path = true

theorem skips_of_prefix {thelist : List Text} {path path' : Text} (h : path <+: path')
    (hskips : Skips thelist path) : Skips thelist path' := by
  obtain ⟨ipath, hmem, hpre⟩ := (filebasedirInList_iff thelist path).mp hskips
  exact (filebasedirInList_iff thelist path').mpr ⟨ipath, hmem, hpre.trans h⟩

theorem prefix_pathOf (dir : Text) (names : List Text) : dir <+: pathOf dir names := by
  induction names generalizing dir with
  | nil => exact List.prefix_refl dir
  | cons name names ih =>
      cases names with
      | nil => exact List.prefix_append dir name
      | cons m names =>
          have hdir : dir <+: dir ++ name ++ ['/'] := by
            rw [List.append_assoc]
            exact List.prefix_append dir _
          exact hdir.trans (ih _)

/-- The path of a name is the beginning of the paths of all that is below it. -/
theorem prefix_pathOf_cons (dir name : Text) (names : List Text) :
    dir ++ name <+: pathOf dir (name :: names) := by
  cases names with
  | nil => exact List.prefix_refl _
  | cons m names =>
      have hname : dir ++ name <+: dir ++ name ++ ['/'] := List.prefix_append _ _
      exact hname.trans (prefix_pathOf _ (m :: names))

theorem pathOf_prefix_dirPath (dir : Text) (names : List Text) :
    pathOf dir names <+: dirPath dir names := by
  rw [dirPath]
  split
  next h =>
    rw [h]
    exact List.prefix_refl dir
  next => exact List.prefix_append _ _

theorem dirPath_cons (dir name : Text) (names : List Text) :
    dirPath dir (name :: names) = dirPath (dir ++ name ++ ['/']) names := by
  cases names with
  | nil => rfl
  | cons m names => rfl

theorem testEntries_some {recur : Text → Option (List Event)} {os : Os} {config : Config}
    {chroothome path : Text} {Q : Text → List Event → Prop} (files : List Text)
    (h : ∀ f ∈ files, ∃ part, testEntry recur os config chroothome path f = some part ∧ Q f part) :
    ∃ out, testEntries recur os config chroothome path files = some out ∧
      ∀ f ∈ files, ∃ part, Q f part ∧ part ⊆ out := by
  induction files with
  | nil => exact ⟨[], rfl, fun f hf => by cases hf⟩
  | cons f files ih =>
      obtain ⟨part, hpart, hQ⟩ := h f List.mem_cons_self
      obtain ⟨out, hout, hall⟩ := ih fun g hg => h g (List.mem_cons_of_mem f hg)
      refine ⟨part ++ out, by rw [testEntries, hpart, hout]; rfl, fun g hg => ?_⟩
      cases List.mem_cons.mp hg with
      | inl heq =>
          rw [heq]
          exact ⟨part, hQ, List.subset_append_left part out⟩
      | inr hmem =>
          obtain ⟨part', hQ', hsub⟩ := hall g hmem
          exact ⟨part', hQ', fun e he => List.mem_append_right part (hsub he)⟩

section

variable {os : Os} {fs : Fs} {config : Config} {chroothome : Text}

theorem testdirpermissions_warns (hshows : Shows os fs) {path : Text} {L : Loc}
    (hL : fs.locate false path = some L) (hentry : fs.entry L = some .dir)
    (hmode : (fs.dirAttrs L).mode &&& S_IWOTH ≠ 0)
    (hnot : ¬ Skips config.ignorewritableforothers path) :
    .warning path writableForOthers ∈ testdirpermissions os config path := by
  have hlstat : os.lstat path = some ⟨.dir, fs.dirAttrs L, 0⟩ := by
    rw [hshows.lstat_eq, statPath, hL, Option.bind_some, statOf, hentry]
  have hwarn : ((fs.dirAttrs L).mode &&& S_IWOTH ≠ 0 &&
      !filebasedirInList config.ignorewritableforothers path) = true := by
    rw [Bool.and_eq_true, decide_eq_true_iff, Bool.not_eq_true', ← Bool.not_eq_true]
    exact ⟨hmode, hnot⟩
  rw [testdirpermissions, hlstat]
  dsimp only
  rw [hwarn]
  exact List.mem_append_right _ (List.mem_append_left _ List.mem_cons_self)

/-- What one entry of the directory at `L` adds for itself and for all that is below it. -/
structure AuditsEntry (config : Config) (fs : Fs) (dir : Text) (L : Loc) (name : Text)
    (part : List Event) : Prop where
  dirs : ∀ names, (∀ n ∈ names, ValidName n) → fs.entry (L ++ name :: names) = some .dir →
    (fs.dirAttrs (L ++ name :: names)).mode &&& S_IWOTH ≠ 0 →
    ¬ Skips config.ignorewritableforothers (dirPath dir (name :: names)) →
    ¬ Skips config.ignorepatheverywhere (dirPath dir (name :: names)) →
    .warning (dirPath dir (name :: names)) writableForOthers ∈ part
  files : ∀ names ino, (∀ n ∈ names, ValidName n) →
    fs.entry (L ++ name :: names) = some (.file ino) → (fs.inode ino).kind = .reg →
    ¬ Skips config.ignorepatheverywhere (pathOf dir (name :: names)) →
    .testfilepermissions (pathOf dir (name :: names)) ∈ part

theorem entry_of_below (hnested : fs.Nested) {L : Loc} {name : Text} {names : List Text}
    (hne : names ≠ []) (hsome : (fs.entry (L ++ name :: names)).isSome) :
    fs.entry (L ++ [name]) = some .dir := by
  rw [List.append_cons] at hsome
  exact Fs.entry_above hnested hne hsome

/-- What is below a path that is left out is left out too. -/
theorem auditsEntry_skipped {dir name : Text} {L : Loc} {part : List Event}
    (h : Skips config.ignorepatheverywhere (dir ++ name)) :
    AuditsEntry config fs dir L name part where
  dirs names _ _ _ _ hnot := by
    refine absurd ?_ hnot
    exact skips_of_prefix ((prefix_pathOf_cons dir name names).trans (pathOf_prefix_dirPath _ _)) h
  files names _ _ _ _ hnot := by
    refine absurd ?_ hnot
    exact skips_of_prefix (prefix_pathOf_cons dir name names) h

/-- Where there is no directory, at most a regular file has to be tested. -/
theorem auditsEntry_leaf (hnested : fs.Nested) {dir name : Text} {L : Loc} {part : List Event}
    (hdir : fs.entry (L ++ [name]) ≠ some .dir)
    (hfile : ∀ ino, fs.entry (L ++ [name]) = some (.file ino) → (fs.inode ino).kind = .reg →
      .testfilepermissions (dir ++ name) ∈ part) :
    AuditsEntry config fs dir L name part where
  dirs names _ hentry := by
    cases names with
    | nil => exact absurd hentry hdir
    | cons m names =>
        have hsome : (fs.entry (L ++ name :: m :: names)).isSome := by rw [hentry]; rfl
        exact absurd (entry_of_below hnested (List.cons_ne_nil m names) hsome) hdir
  files names ino _ hentry hkind _ := by
    cases names with
    | nil => exact hfile ino hentry hkind
    | cons m names =>
        have hsome : (fs.entry (L ++ name :: m :: names)).isSome := by rw [hentry]; rfl
        exact absurd (entry_of_below hnested (List.cons_ne_nil m names) hsome) hdir

theorem auditsEntry_dir {dir name : Text} {L : Loc} {part : List Event}
    (hdir : fs.entry (L ++ [name]) = some .dir)
    (h : Audits Skips config fs (dir ++ name ++ ['/']) (L ++ [name]) part) :
    AuditsEntry config fs dir L name part where
  dirs names hvalid hentry := by
    rw [List.append_cons] at hentry ⊢
    rw [dirPath_cons]
    exact h.dirs names hvalid hentry
  files names ino hvalid hentry hkind := by
    cases names with
    | nil =>
        rw [hdir] at hentry
        cases hentry
    | cons m names =>
        rw [List.append_cons] at hentry
        exact h.files (m :: names) ino hvalid hentry hkind

theorem testEntry_audits (hshows : Shows os fs) (hlinks : fs.NoLinks) (hnested : fs.Nested)
    {recur : Text → Option (List Event)} {path name : Text} {L : Loc}
    (hslash : (chroothome ++ path).getLast? = some '/')
    (hL : fs.locate true (chroothome ++ path) = some L) (hname : ValidName name)
    (hrecur : fs.entry (L ++ [name]) = some .dir → ∃ out,
      recur (path ++ name ++ ['/']) = some out ∧ Audits Skips config fs
        (chroothome ++ (path ++ name ++ ['/'])) (L ++ [name]) out) :
    ∃ part, testEntry recur os config chroothome path name = some part ∧
      AuditsEntry config fs (chroothome ++ path) L name part := by
  have hlookup : ∀ follow, fs.lookup follow (chroothome ++ path ++ name) =
      fs.entry (L ++ [name]) := by
    intro follow
    rw [Fs.lookup, Fs.locate_name_noLinks hlinks follow true hslash hname, hL, Option.map_some,
      Option.bind_some]
  rw [testEntry]
  split
  next hskips => exact ⟨[], rfl, auditsEntry_skipped hskips⟩
  next hskips =>
    split
    next hfile =>
      obtain ⟨ino, hino, -⟩ := (hshows.isfile_iff _).mp hfile
      rw [hlookup] at hino
      refine ⟨_, rfl, auditsEntry_leaf hnested (by simp [hino]) fun _ _ _ => ?_⟩
      exact List.mem_append_right _ List.mem_cons_self
    next hfile =>
      by_cases hdir : fs.entry (L ++ [name]) = some .dir
      · have hisdir : (os.isdir (chroothome ++ path ++ name) &&
            !os.islink (chroothome ++ path ++ name)) = true := by
          rw [Bool.and_eq_true, Bool.not_eq_true', ← Bool.not_eq_true, hshows.isdir_iff,
            hshows.islink_iff, hlookup, hlookup]
          refine ⟨hdir, fun h => ?_⟩
          obtain ⟨t, ht⟩ := h
          exact hlinks _ t ht
        obtain ⟨out, hout, haudits⟩ := hrecur hdir
        rw [if_pos hisdir]
        refine ⟨out, hout, auditsEntry_dir hdir ?_⟩
        simpa using haudits
      · have hisdir : ¬ (os.isdir (chroothome ++ path ++ name) &&
            !os.islink (chroothome ++ path ++ name)) = true := by
          rw [Bool.and_eq_true, hshows.isdir_iff, hlookup]
          exact fun h => hdir h.1
        rw [if_neg hisdir]
        refine ⟨_, rfl, auditsEntry_leaf hnested hdir fun ino hentry hkind => absurd ?_ hfile⟩
        exact (hshows.isfile_iff _).mpr ⟨ino, by rw [hlookup, hentry], hkind⟩

/-- The test of a directory and those of all its entries leave out nothing below it. -/
theorem audits_of_entries (hnested : fs.Nested) {dir : Text} {L : Loc} {files : List Text}
    {own out : List Event} (hlists : fs.Lists L files) (hdir : fs.entry L = some .dir)
    (hown : (fs.dirAttrs L).mode &&& S_IWOTH ≠ 0 → ¬ Skips config.ignorewritableforothers dir →
      .warning dir writableForOthers ∈ own)
    (hall : ∀ f ∈ files, ∃ part, AuditsEntry config fs dir L f part ∧ part ⊆ out) :
    Audits Skips config fs dir L (own ++ out) := by
  have hlisted : ∀ name names, ValidName name → (fs.entry (L ++ name :: names)).isSome →
      name ∈ files := by
    intro name names hname hsome
    refine (hlists.2 name).mpr ⟨hname, ?_⟩
    cases names with
    | nil => exact hsome
    | cons m names =>
        rw [entry_of_below hnested (List.cons_ne_nil m names) hsome]
        rfl
  refine ⟨fun names hvalid hentry hmode hothers heverywhere => ?_,
    fun names ino hvalid hentry hkind heverywhere => ?_⟩
  · cases names with
    | nil =>
        rw [List.append_nil] at hmode
        exact List.mem_append_left _ (hown hmode hothers)
    | cons name names =>
        have hname := hvalid name List.mem_cons_self
        obtain ⟨part, haudits, hsub⟩ := hall name (hlisted name names hname (by rw [hentry]; rfl))
        exact List.mem_append_right _ (hsub (haudits.dirs names
          (fun n hn => hvalid n (List.mem_cons_of_mem name hn)) hentry hmode hothers heverywhere))
  · cases names with
    | nil =>
        rw [List.append_nil, hdir] at hentry
        cases hentry
    | cons name names =>
        have hname := hvalid name List.mem_cons_self
        obtain ⟨part, haudits, hsub⟩ := hall name (hlisted name names hname (by rw [hentry]; rfl))
        exact List.mem_append_right _ (hsub (haudits.files names ino
          (fun n hn => hvalid n (List.mem_cons_of_mem name hn)) hentry hkind heverywhere))

/-- The walk ends with the tree, and nothing below the directory is forgotten. -/
theorem testchrootfiles_audits (hshows : Shows os fs) (hlinks : fs.NoLinks)
    (hnested : fs.Nested) {B : Nat} (hB : fs.DepthBound B) (n : Nat) (path : Text) (L : Loc)
    (hslash : (chroothome ++ path).getLast? = some '/')
    (hL : fs.locate true (chroothome ++ path) = some L) (hentry : fs.entry L = some .dir)
    (hn : B + 1 ≤ n + L.length) :
    ∃ out, testchrootfiles os config chroothome n path = some out ∧
      Audits Skips config fs (chroothome ++ path) L out := by
  induction n generalizing path L with
  | zero =>
      have hlength := hB L (by rw [hentry]; rfl)
      omega
  | succ n ih =>
      have hlookup : fs.lookup true (chroothome ++ path) = some .dir := by
        rw [Fs.lookup, hL, Option.bind_some, hentry]
      have hexists : ¬ (!os.exists_ (chroothome ++ path)) = true := by
        rw [hshows.exists_eq, hlookup]
        simp
      rw [testchrootfiles, if_neg hexists]
      cases hlist : os.listdir (chroothome ++ path) with
      | none =>
          have hsome := hshows.listdir_dir _ hlookup
          rw [hlist] at hsome
          cases hsome
      | some files =>
          obtain ⟨d, hd, _, hlists⟩ := hshows.lists _ _ hlist
          rw [hL] at hd
          cases hd
          have hparts : ∀ f ∈ files, ∃ part,
              testEntry (testchrootfiles os config chroothome n) os config chroothome path f =
                some part ∧ AuditsEntry config fs (chroothome ++ path) L f part := by
            intro f hf
            have hname := ((hlists.2 f).mp hf).1
            apply testEntry_audits hshows hlinks hnested hslash hL hname
            intro hdir
            have htext : chroothome ++ (path ++ f ++ ['/']) = chroothome ++ path ++ f ++ ['/'] := by
              simp
            apply ih _ _ (by rw [htext]; exact List.getLast?_concat) _ hdir
            · rw [List.length_append, List.length_singleton]
              omega
            · rw [htext, Fs.locate_subdir hlinks hslash hname]
              exact ⟨L, hL, rfl, hdir⟩
          obtain ⟨out, hout, hall⟩ := testEntries_some files hparts
          have hL' := (Fs.locate_follow_noLinks hlinks false true (chroothome ++ path)).trans hL
          refine ⟨_, by simp only [hout]; rfl, audits_of_entries hnested hlists hentry ?_ hall⟩
          exact testdirpermissions_warns hshows hL' hentry

end

/-- The options whose entries exempt what is below them. -/
def pathOptions : List Text :=
  ["ignorepathoncompare".toList, "ignorewritableforothers".toList,
    "ignorewritableforgroup".toList, "ignorepatheverywhere".toList]

/-- A path is exempt only if it is listed, and the walk with enough recursion leaves out nothing
else, if each entry of these options is bounded, and only then. -/
theorem testSection_exempts_iff (os : Os) (fs : Fs) (get : Text → Option Text) (verbose : Bool)
    (section_ : Text) (C : Loc) (hshows : Shows os fs) (hlinks : fs.NoLinks)
    (hnested : fs.Nested) (hC : fs.locate true (chrootdir section_) = some C) :
    ((∀ option ∈ pathOptions, ∀ file,
        filebasedirInList (getListOption (get option)) file = true →
          Listed (getListOption (get option)) file) ∧
      ∃ n, ∀ fuel, n ≤ fuel → ∃ out, testSection os get verbose fuel section_ = some out ∧
        Audits Listed (sectionConfig get verbose) fs (chrootdir section_) C out) ↔
    ∀ option ∈ pathOptions, ∀ entry ∈ getListOption (get option),
      Bounded (getListOption (get option)) entry := by
  constructor
  · intro ⟨hlists, _⟩ option hoption
    exact (exempts_listed_iff _).mp (hlists option hoption)
  · intro hbounded
    have hlists : ∀ option ∈ pathOptions, ∀ file,
        filebasedirInList (getListOption (get option)) file = true →
          Listed (getListOption (get option)) file :=
      fun option hoption => (exempts_listed_iff _).mpr (hbounded option hoption)
    obtain ⟨B, hB⟩ := fs.exists_depthBound
    have hslash : (chrootdir section_).getLast? = some '/' := by
      rw [chrootdir]
      split
      next => exact List.getLast?_concat
      next h => exact Classical.not_not.mp h
    have hentry := Fs.dir_of_slash hslash hC
    refine ⟨hlists, B + 1, fun fuel hfuel => ?_⟩
    rw [← List.append_nil (chrootdir section_)] at hslash hC
    obtain ⟨out, hout, haudits⟩ := @testchrootfiles_audits os fs (sectionConfig get verbose)
      (chrootdir section_) hshows hlinks hnested B hB fuel [] C hslash hC hentry (by omega)
    rw [List.append_nil] at haudits
    refine ⟨out, hout, audits_mono haudits ?_ ?_⟩
    · exact hlists _ (by simp [pathOptions])
    · exact hlists _ (by simp [pathOptions])

def osOf (fs : Fs) : Os where
  exists_ path := (fs.lookup true path).isSome
  lstat path := statPath fs false path
  listdir path := (fs.locate true path).bind fun loc =>
    if fs.entry loc = some .dir then some (fs.names loc) else none
  isfile path :=
    match fs.lookup true path with
    | some (.file ino) => (fs.inode ino).kind = .reg
    | _ => false
  isdir path := fs.lookup true path = some .dir
  islink path :=
    match fs.lookup false path with
    | some (.symlink _) => true
    | _ => false

theorem shows_osOf (fs : Fs) : Shows (osOf fs) fs where
  exists_eq _ := rfl
  lstat_eq _ := rfl
  lists path names h := by
    obtain ⟨loc, hloc, hnames⟩ := Option.bind_eq_some_iff.mp h
    rw [Option.ite_none_right_eq_some, Option.some.injEq] at hnames
    rw [← hnames.2]
    exact ⟨loc, hloc, hnames.1, fs.lists_names loc⟩
  listdir_dir path h := by
    obtain ⟨loc, hloc, hdir⟩ := Option.bind_eq_some_iff.mp h
    simp [osOf, hloc, hdir]
  isfile_iff path := by
    simp only [osOf]
    split
    next ino h => simp [h]
    next h =>
      exact ⟨fun hfalse => (by cases hfalse), fun ⟨ino, hino, _⟩ => absurd hino (h ino)⟩
  isdir_iff path := decide_eq_true_iff
  islink_iff path := by
    simp only [osOf]
    split
    next t h => simp [h]
    next h => exact ⟨fun hfalse => (by cases hfalse), fun ⟨t, ht⟩ => absurd ht (h t)⟩

def writableTmp : Fs where
  nodes := [(["jail".toList], .dir), (["jail".toList, "tmp".toList], .dir)]
  dirAttrs loc := ⟨if loc = ["jail".toList, "tmp".toList] then 0o777 else 0o755, 0, 0, 0, 0⟩
  inode _ := ⟨.reg, ⟨0o644, 0, 0, 0, 0⟩, [], 0⟩
  nextIno := 0
  cwd := []

def oneOption (option text : Text) : Text → Option Text :=
  fun x => if x = option then some text else none

def suInUsr : Fs where
  nodes := [(["jail".toList], .dir), (["jail".toList, "tmp".toList], .dir),
    (["jail".toList, "usr".toList], .dir), (["jail".toList, "usr".toList, "su".toList], .file 0)]
  dirAttrs loc := ⟨if loc = ["jail".toList] then 0o755 else 0o757, 0, 0, 0, 0⟩
  inode _ := ⟨.reg, ⟨0o4700, 0, 0, 0, 0⟩, [], 0⟩
  nextIno := 1
  cwd := []

theorem testSection_exempts_iff_tmp :
    ((∀ option ∈ pathOptions, ∀ file, filebasedirInList (getListOption
        (oneOption "ignorewritableforothers".toList "/jail/tmp/".toList option)) file = true →
      Listed (getListOption
        (oneOption "ignorewritableforothers".toList "/jail/tmp/".toList option)) file) ∧
    ∃ n, ∀ fuel, n ≤ fuel → ∃ out, testSection (osOf suInUsr)
        (oneOption "ignorewritableforothers".toList "/jail/tmp/".toList) false fuel
        "/jail".toList = some out ∧
      Audits Listed (sectionConfig
        (oneOption "ignorewritableforothers".toList "/jail/tmp/".toList) false) suInUsr
        (chrootdir "/jail".toList) ["jail".toList] out) ∧
    testSection (osOf suInUsr) (oneOption "ignorewritableforothers".toList "/jail/tmp/".toList)
        false 9 "/jail".toList =
      some [.warning "/jail/usr/".toList writableForOthers,
        .comparefiles "/jail/usr/su".toList "/usr/su".toList,
        .testfilepermissions "/jail/usr/su".toList,
        .warning "/jail/usr/su".toList " is executable for user and setuid root!!".toList] := by
  constructor
  · refine (testSection_exempts_iff (osOf suInUsr) suInUsr _ false "/jail".toList
      ["jail".toList] (shows_osOf suInUsr) (Fs.noLinks_of_nodes (by decide +kernel))
      (Fs.nested_of_nodes (by decide +kernel)) (by decide +kernel)).mpr ?_
    have hslash : ∀ option ∈ pathOptions, ∀ entry ∈ getListOption
        (oneOption "ignorewritableforothers".toList "/jail/tmp/".toList option),
        entry.getLast? = some '/' := by decide +kernel
    exact fun option hoption entry hentry => Or.inl (hslash option hoption entry hentry)
  · decide +kernel

/-- An option that is empty exempts everything, and an entry what begins with the same
letters. -/
theorem testSection_exempts_unlisted :
    filebasedirInList (getListOption (some [])) "/jail/tmp".toList = true ∧
      ¬ Listed (getListOption (some [])) "/jail/tmp".toList ∧
    (filebasedirInList (getListOption (some "/jail/tmp".toList)) "/jail/tmpfoo".toList = true ∧
      ¬ Listed (getListOption (some "/jail/tmp".toList)) "/jail/tmpfoo".toList) ∧
    testSection (osOf writableTmp) (oneOption "ignorepatheverywhere".toList []) false 9
      "/jail".toList = some [] ∧
    ¬ Audits Listed (sectionConfig (oneOption "ignorepatheverywhere".toList []) false)
      writableTmp (chrootdir "/jail".toList) ["jail".toList] [] := by
  have hempty : ∀ entry ∈ getListOption (some []), entry = [] := by decide +kernel
  have hprefix : ∀ entry ∈ getListOption (some "/jail/tmp".toList),
      ¬ steps entry <+: steps "/jail/tmpfoo".toList := by decide +kernel
  have hnone : ∀ path, ¬ Listed (getListOption (some [])) path :=
    fun path ⟨entry, hentry, hne, _⟩ => hne (hempty entry hentry)
  refine ⟨by decide +kernel, hnone _, ⟨by decide +kernel, ?_⟩, by decide +kernel, ?_⟩
  · exact fun ⟨entry, hentry, _, _, hsteps⟩ => hprefix entry hentry hsteps
  · intro haudits
    have hwarn := haudits.dirs ["tmp".toList] (by decide +kernel) (by decide +kernel)
      (by decide +kernel) (fun ⟨entry, hentry, _⟩ => by cases hentry) (hnone _)
    cases hwarn

end Jailkit.Check
