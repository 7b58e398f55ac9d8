import Jailkit.Tools.HandledFiles
import Jailkit.Tools.InitSections

/-!
What jk_init copies for the sections that it handles. The list of handled files goes from
one call of `copy_binaries_and_libs` to the next, so that a file is copied once in a run.
-/
namespace Jailkit.Tools

open JkLib Raising

/-- `config`, the jail, and what jk_init finds in its environment. -/
structure InitArgs where
  force : Bool
  hardlink : Bool
  chroot : Text
  search_path : Text
  cwd : Text

def abspath (cwd path : Text) : Text := normpath (osPathJoin cwd path)

def findFileInPath (cwd filename : Text) : List Text → Py (Option Text)
  | [] => pure none
  | path :: paths => do
      if ← exists_ (osPathJoin path filename) then
        pure (some (abspath cwd (osPathJoin path filename)))
      else findFileInPath cwd filename paths

def findFilesInPath (a : InitArgs) : List Text → Py (List Text)
  | [] => pure []
  | [] :: _ => raise .indexError
  | (c :: tmp) :: paths => do
      let found ←
        if c = '/' then pure (some (c :: tmp))
        else findFileInPath a.cwd (c :: tmp) (a.search_path.splitOn ':')
      let paths2 ← findFilesInPath a paths
      pure (found.toList ++ paths2)

/-- Libraries, executables, regular files and directories are all handled as paths. -/
def sectionPaths (cfg : Cfg) (section_ : Text) : List Text :=
  ["paths", "libraries", "executables", "regularfiles", "directories"].flatMap
    fun option => configGetOptionAsList cfg section_ option.toList

def copyIfAny (copyFiles : CopyFiles) (paths : List Text) (o : CopyOptions)
    (try_glob_matching : Bool) (didfiles : Nat) : Py Nat :=
  if paths.length > 0 then copyFiles paths o try_glob_matching didfiles else pure didfiles

/-- The calls of `copy_binaries_and_libs` in `handle_cfg_section`. The last one has 3 for
`try_glob_matching`, which is not 1. -/
def sectionCopies (fuel : Nat) (a : InitArgs) (cfg : Cfg) (section_ : Text) (didfiles : Nat) :
    Py Nat :=
  if a.chroot = [] then raise .indexError
  else do
    let paths2 ← findFilesInPath a (sectionPaths cfg section_)
    let didfiles ← copyBinariesAndLibs fuel (stripLast a.chroot) paths2
      ⟨a.force, true, a.hardlink, false, false⟩ true didfiles
    let didfiles ← copyIfAny (copyBinariesAndLibs fuel (stripLast a.chroot))
      (configGetOptionAsList cfg section_ "paths_w_owner".toList)
      ⟨a.force, true, a.hardlink, false, true⟩ true didfiles
    copyIfAny (copyBinariesAndLibs fuel (stripLast a.chroot))
      (configGetOptionAsList cfg section_ "paths_w_setuid".toList)
      ⟨a.force, true, a.hardlink, true, true⟩ false didfiles

def initCopies (fuel : Nat) (a : InitArgs) (cfg : Cfg) : List Text → Nat → Py Nat
  | [], didfiles => pure didfiles
  | section_ :: order, didfiles => do
      let didfiles ← sectionCopies fuel a cfg section_ didfiles
      initCopies fuel a cfg order didfiles

section

variable {P : Call → Prop}

theorem findFileInPath_only (hP : ∀ path, P (.exists path)) (cwd filename : Text)
    (paths : List Text) : Prog.Only P (findFileInPath cwd filename paths) := by
  induction paths with
  | nil => exact trivial
  | cons path paths ih =>
      rw [findFileInPath]
      refine only_bind ⟨hP _, fun _ => trivial⟩ fun there => ?_
      split
      · exact trivial
      · exact ih

theorem findFilesInPath_only (hP : ∀ path, P (.exists path)) (a : InitArgs)
    (paths : List Text) : Prog.Only P (findFilesInPath a paths) := by
  induction paths with
  | nil => exact trivial
  | cons tmp paths ih =>
      cases tmp with
      | nil => exact trivial
      | cons c tmp =>
          rw [findFilesInPath]
          split
          · exact only_bind trivial fun found => only_bind ih fun _ => trivial
          · refine only_bind (findFileInPath_only hP _ _ _) fun found => ?_
            exact only_bind ih fun _ => trivial

end

section

variable {umask ref : Nat} {w : Copying}

theorem copyIfAny_handles {copyFiles : CopyFiles} (hcopy : HandlesAll umask ref copyFiles)
    (paths : List Text) (o : CopyOptions) (try_glob_matching : Bool) (hw : Listed ref w) :
    Handles umask ref (copyIfAny copyFiles paths o try_glob_matching ref) (fun r => r = ref) w := by
  rw [copyIfAny]
  split
  · exact hcopy paths o try_glob_matching w hw
  · exact handles_pure ref hw rfl

theorem sectionCopies_handles (fuel : Nat) (a : InitArgs) (cfg : Cfg) (section_ : Text)
    (hw : Listed ref w) :
    Handles umask ref (sectionCopies fuel a cfg section_ ref) (fun r => r = ref) w := by
  have hcopy : HandlesAll umask ref (copyBinariesAndLibs fuel (stripLast a.chroot)) :=
    copyBinariesAndLibs_handles fuel _
  rw [sectionCopies]
  split
  · exact handles_raise _ hw
  · apply handles_after hw (rests_makesWay (findFilesInPath_only (fun _ => trivial) a _))
    intro paths2 w₁ hs₁ _
    apply handles_bind (hcopy paths2 _ true w₁ (listed_still hs₁ hw))
    intro r w₂ hw₂ hr
    subst hr
    apply handles_bind (copyIfAny_handles hcopy _ _ true hw₂)
    intro r w₃ hw₃ hr
    subst hr
    exact copyIfAny_handles hcopy _ _ false hw₃

theorem initCopies_handles (fuel : Nat) (a : InitArgs) (cfg : Cfg) (order : List Text)
    (hw : Listed ref w) :
    Handles umask ref (initCopies fuel a cfg order ref) (fun r => r = ref) w := by
  induction order generalizing w with
  | nil => exact handles_pure ref hw rfl
  | cons section_ order ih =>
      rw [initCopies]
      apply handles_bind (sectionCopies_handles fuel a cfg section_ hw)
      intro r w₁ hw₁ hr
      rw [hr]
      exact ih hw₁

/-- Where no symlink and no directory is copied, or the default list is the one that was
passed: the list only grows, it alone matters, and a run of jk_init copies no file twice. -/
theorem handledfiles_only_grow (umask ref fuel : Nat) (s : World) :
    (∀ chroot files o try_glob_matching,
      GrowsList umask (OwnList ref) ref
        (copyBinariesAndLibs fuel chroot files o try_glob_matching ref) s ∧
      IgnoresLists umask (OwnList ref) ref
        (copyBinariesAndLibs fuel chroot files o try_glob_matching ref) s) ∧
    ∀ a cfg order, CopiesOnce umask (OwnList ref) (initCopies fuel a cfg order ref) s := by
  refine ⟨fun chroot files o try_glob_matching => ?_, fun a cfg order => ?_⟩
  · have hcopy : HandlesAll umask ref (copyBinariesAndLibs fuel chroot) :=
      copyBinariesAndLibs_handles fuel chroot
    have hrun := hcopy files o try_glob_matching (s, []) (listed_start s)
    exact ⟨growsList_of_handles hrun, ignoresLists_of_handles hrun⟩
  · exact copiesOnce_of_handles (initCopies_handles fuel a cfg order (listed_start s))

end

def linkedFile (given : List Text) : World :=
  withLists (fun i => if i = 1 then given else [])
    (worldOf 0o644 ((["l".toList], .symlink "/f".toList) :: (["f".toList], .file 1) ::
      dirsAt [["jail".toList]]))

def executeLogged (umask : Nat) (w : Copying) (c : Call) : Res c × Copying :=
  ((execute umask w.1 c).1, (execute umask w.1 c).2, noteCopy w.2 c (execute umask w.1 c).1)

theorem logged_execute (umask : Nat) (w : Copying) (c : Call) (r : Res c) (w' : Copying)
    (h : some (executeLogged umask w c) = some (r, w')) :
    Logged umask (fun _ _ => True) w c r w' := by
  cases h
  exact ⟨posix_execute umask w.1 c, rfl, trivial⟩

def pathsCfg : Cfg := [⟨"s".toList, [("paths".toList, "/f,/l".toList)]⟩]

def forcedArgs : InitArgs := ⟨true, false, "/jail".toList, [], "/".toList⟩

/-- Answers that show no symlink and no directory of the source. -/
def executePlain (umask : Nat) (w : Copying) : (c : Call) → Option (Res c × Copying)
  | .readlink .source _ | .listdir _ => none
  | c => some (executeLogged umask w c)

theorem logged_executePlain (umask ref : Nat) (w : Copying) (c : Call) (r : Res c) (w' : Copying)
    (h : executePlain umask w c = some (r, w')) : Logged umask (OwnList ref) w c r w' := by
  have hown : ∀ {c : Call} {r : Res c}, some (executeLogged umask w c) = some (r, w') →
      OwnList ref c r → Logged umask (OwnList ref) w c r w' := fun h hown => by
    obtain ⟨hposix, hlog, -⟩ := logged_execute umask w _ _ w' h
    exact ⟨hposix, hlog, hown⟩
  cases c with
  | listdir _ => cases h
  | readlink use path =>
      cases use with
      | source => cases h
      | dest | parent | walk _ => exact hown h trivial
  | _ => exact hown h trivial

def plainFiles : World :=
  worldOf 0o644 ((["f".toList], .file 1) :: (["g".toList], .file 2) :: dirsAt [["jail".toList]])

def twiceCfg : Cfg :=
  [⟨"s".toList, [("paths".toList, "/f".toList)]⟩, ⟨"t".toList, [("paths".toList, "/g,/f".toList)]⟩]

theorem handledfiles_only_grow_twice :
    ∃ r w', Prog.Returns (Disturbed 0o022 (OwnList 1))
        (initCopies 9 forcedArgs twiceCfg ["s".toList, "t".toList] 1) (plainFiles, []) (.ok r) w' ∧
      w'.2 = ["/f".toList, "/g".toList] ∧ w'.2.Nodup := by
  have hrun : ((initCopies 9 forcedArgs twiceCfg ["s".toList, "t".toList] 1).finish
      (executePlain 0o022) (plainFiles, [])).any (fun x =>
        returnsOk x.1 && decide (x.2.2 = ["/f".toList, "/g".toList])) = true := by decide +kernel
  obtain ⟨a, w', hret, hcheck⟩ := Prog.returns_of_any (logged_executePlain 0o022 1) hrun
  simp only [Bool.and_eq_true, decide_eq_true_eq] at hcheck
  have hdisturbed := Prog.returns_mono (fun _ _ _ _ => disturbed_of_logged) hret
  cases a with
  | error e => cases hcheck.1
  | ok r =>
      exact ⟨r, w', hdisturbed, hcheck.2,
        (handledfiles_only_grow 0o022 1 9 plainFiles).2 _ _ _ _ _ hdisturbed⟩

def listLacks (x : Text) : Except Exn Nat × Copying → Bool
  | (.ok r, w) => decide (x ∉ w.1.lists r)
  | (.error _, _) => false

/-- The symlink makes the call return the default list, and `f` is copied a second time. -/
theorem handledfiles_lost :
    ¬ GrowsList 0o022 (fun _ _ => True) 1 (copyBinariesAndLibs 9 "/jail".toList ["/l".toList]
        (defaultOptions false) false 1) (linkedFile ["/x".toList]) ∧
      ¬ CopiesOnce 0o022 (fun _ _ => True)
        (initCopies 9 forcedArgs pathsCfg ["s".toList] 1) (linkedFile []) := by
  constructor
  · intro hgrows
    have hrun : ((copyBinariesAndLibs 9 "/jail".toList ["/l".toList] (defaultOptions false) false
        1).finish (fun w c => some (executeLogged 0o022 w c)) (linkedFile ["/x".toList], [])).any
          (listLacks "/x".toList) = true := by decide +kernel
    obtain ⟨a, w', hret, hcheck⟩ := Prog.returns_of_any (logged_execute 0o022) hrun
    cases a with
    | error e => cases hcheck
    | ok r =>
        have hkept := (hgrows r w' hret).1
          (show "/x".toList ∈ (linkedFile ["/x".toList]).lists 1 from List.mem_singleton.mpr rfl)
        exact of_decide_eq_true hcheck hkept
  · intro honce
    have hrun : ((initCopies 9 forcedArgs pathsCfg ["s".toList] 1).finish
        (fun w c => some (executeLogged 0o022 w c)) (linkedFile [], [])).any
          (fun x => decide (¬ x.2.2.Nodup)) = true := by decide +kernel
    obtain ⟨a, w', hret, hcheck⟩ := Prog.returns_of_any (logged_execute 0o022) hrun
    exact of_decide_eq_true hcheck
      (honce a w' (Prog.returns_mono (fun _ _ _ _ => disturbed_of_logged) hret))

end Jailkit.Tools
