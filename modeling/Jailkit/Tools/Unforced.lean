import Jailkit.Tools.Copy

/-!
Without `force_overwrite`, `copy_binaries_and_libs` removes nothing.
-/
namespace Jailkit.Tools

open JkLib Raising

def NoUnlink (c : Call) : Prop := ∀ path, c ≠ .unlink path

variable {α : Type} {P : Call → Prop}

theorem only_catchOs {p handler : Py α} (hp : Prog.Only P p) (hh : Prog.Only P handler) :
    Prog.Only P (catchOs p handler) := by
  refine only_bind (only_attempt hp) fun r => ?_
  split
  · exact trivial
  · exact hh
  · exact trivial
  · exact trivial

theorem only_exceptOs {p : Py α} {handler : Exn → Py α} (hp : Prog.Only P p)
    (hh : ∀ e, Prog.Only P (handler e)) : Prog.Only P (exceptOs p handler) := by
  refine only_bind (only_attempt hp) fun r => ?_
  split
  · exact trivial
  · exact hh _
  · exact hh _
  · exact trivial

theorem only_exceptAll {p handler : Py Unit} (hp : Prog.Only P p) (hh : Prog.Only P handler) :
    Prog.Only P (exceptAll p handler) := by
  refine only_bind (only_attempt hp) fun r => ?_
  split
  · exact trivial
  · exact hh

theorem noUnlink_of_looks {c : Call} (h : Looks c) : NoUnlink c := by
  intro path heq
  rw [heq] at h
  exact h

theorem only_looks {p : Py α} (hp : Prog.Only Looks p) : Prog.Only NoUnlink p :=
  Prog.only_mono hp fun _ => noUnlink_of_looks

def MakesWay : Call → Prop
  | .mkdir _ _ | .symlink _ _ | .mknod _ _ _ _ | .stat _ | .utime _ _ _ | .chown _ _ _
  | .chmod _ _ | .cacheGet _ _ | .cacheSet _ _ | .lstat _ _ | .exists _ | .readlink _ _ => True
  | _ => False

theorem noUnlink_of_makesWay {c : Call} (h : MakesWay c) : NoUnlink c := by
  intro path heq
  rw [heq] at h
  exact h

theorem makesWay_of_findsWay {c : Call} (h : FindsWay c) : MakesWay c := by
  cases c with
  | cacheGet _ _ | cacheSet _ _ | lstat _ _ | readlink _ _ | «exists» _ => trivial
  | _ => exact h.elim

theorem copyTimeAndPermissions_makesWay (src dst : Text) (allow_suid copy_ownership : Bool) :
    Prog.Only MakesWay (copyTimeAndPermissions src dst allow_suid copy_ownership) := by
  refine only_bind ⟨trivial, fun _ => trivial⟩ fun sbuf => ?_
  refine only_bind ⟨trivial, fun _ => trivial⟩ fun _ => ?_
  refine only_bind ?_ fun _ => ⟨trivial, fun _ => trivial⟩
  cases copy_ownership with
  | true => exact ⟨trivial, fun _ => trivial⟩
  | false => exact trivial

theorem copyParentPermissions_makesWay (o : ParentOptions) (origpath jailpath : Text) :
    Prog.Only MakesWay (copyParentPermissions o origpath jailpath) := by
  rw [copyParentPermissions]
  split
  · exact only_catchOs (copyTimeAndPermissions_makesWay _ _ _ _) trivial
  · exact trivial

theorem createParent_makesWay {recur : Text → Py (Option Text)}
    (hrecur : ∀ realfile, Prog.Only MakesWay (recur realfile)) (chroot : Text)
    (o : ParentOptions) (origpath jailpath : Text) (sb : StatBuf) :
    Prog.Only MakesWay (createParent recur chroot o origpath jailpath sb) := by
  rw [createParent]
  split
  · refine only_bind ⟨trivial, fun _ => trivial⟩ fun _ => ?_
    exact only_bind (copyParentPermissions_makesWay _ _ _) fun _ => trivial
  · refine only_bind ⟨trivial, fun _ => trivial⟩ fun realfile => ?_
    refine only_bind ⟨trivial, fun _ => trivial⟩ fun _ => ?_
    split
    · exact trivial
    · split
      · exact hrecur _
      · dsimp only
        split
        · exact trivial
        · exact hrecur _
  · exact trivial

theorem createMissing_makesWay {recur : Text → Py (Option Text)}
    (hrecur : ∀ realfile, Prog.Only MakesWay (recur realfile)) (chroot : Text)
    (o : ParentOptions) (existpath : Option Text) (done spath : List Text) :
    Prog.Only MakesWay (createMissing recur chroot o existpath done spath) := by
  induction spath generalizing existpath done with
  | nil =>
      rw [createMissing]
      exact trivial
  | cons entry spath ih =>
      cases existpath with
      | none => exact trivial
      | some existpath =>
          rw [createMissing]
          have hlook : Prog.Only MakesWay
              (some <$> cachedlstat .parent (joinPath (done ++ [entry])) : Py _) :=
            only_bind (cachedlstat_only trivial trivial fun _ => trivial) fun _ => trivial
          refine only_bind (only_catchOs hlook trivial) fun sb => ?_
          cases sb with
          | none => exact trivial
          | some sb =>
              refine only_bind (createParent_makesWay hrecur _ _ _ _ _) fun existpath => ?_
              exact ih _ _

theorem createParentPath_makesWay (fuel : Nat) (chroot path : Text) (o : ParentOptions) :
    Prog.Only MakesWay (createParentPath fuel chroot path o) := by
  induction fuel generalizing path with
  | zero => exact trivial
  | succ n ih =>
      rw [createParentPath]
      refine only_bind (split_only path) fun spath => ?_
      have hexisting : Prog.Only MakesWay (followExisting chroot chroot [] spath) :=
        Prog.only_mono (followExisting_findsWay _ _ _ _) fun _ => makesWay_of_findsWay
      refine only_bind hexisting fun found => ?_
      exact createMissing_makesWay (fun realfile => ih realfile) _ _ _ _ _

theorem makeDevice_makesWay (sb : StatBuf) (path chrootpath : Text) (retain_owner : Bool) :
    Prog.Only MakesWay (makeDevice sb path chrootpath retain_owner) := by
  rw [makeDevice]
  split
  · refine only_bind ⟨trivial, fun _ => trivial⟩ fun _ => ?_
    exact copyTimeAndPermissions_makesWay _ _ _ _
  · refine only_bind ⟨trivial, fun _ => trivial⟩ fun _ => ?_
    exact copyTimeAndPermissions_makesWay _ _ _ _
  · exact trivial

theorem copyDevice_makesWay (fuel : Nat) (chroot path : Text) (retain_owner : Bool) :
    Prog.Only MakesWay (copyDevice fuel chroot path retain_owner) := by
  refine only_bind (createParentPath_makesWay _ _ _ _) fun _ => ?_
  have hresolve : Prog.Only MakesWay (resolveRealpath (chroot ++ path) chroot false) :=
    Prog.only_mono (resolveRealpath_findsWay _ _ _) fun _ => makesWay_of_findsWay
  refine only_bind hresolve fun chrootpath => ?_
  refine only_bind ⟨trivial, fun _ => trivial⟩ fun found => ?_
  split
  · exact trivial
  · refine only_bind ⟨trivial, fun _ => trivial⟩ fun sb => ?_
    exact only_exceptAll (makeDevice_makesWay _ _ _ _) trivial

theorem only_makesWay {p : Py α} (hp : Prog.Only MakesWay p) : Prog.Only NoUnlink p :=
  Prog.only_mono hp fun _ => noUnlink_of_makesWay

theorem copyWithPermissions_noUnlink (src dst : Text)
    (try_hardlink allow_suid retain_owner : Bool) :
    Prog.Only NoUnlink (copyWithPermissions src dst try_hardlink allow_suid retain_owner) := by
  refine only_bind ?_ fun do_normal_copy => ?_
  · cases try_hardlink with
    | false => exact trivial
    | true =>
        refine only_bind (only_attempt ⟨fun _ h => (by cases h), fun _ => trivial⟩) fun r => ?_
        split
        · exact trivial
        · exact trivial
  · split
    · refine only_catchOs ?_ trivial
      refine only_bind ⟨fun _ h => (by cases h), fun _ => trivial⟩ fun _ => ?_
      exact only_makesWay (copyTimeAndPermissions_makesWay _ _ _ _)
    · exact trivial

/-- The recursive calls are made without force as well. -/
def Unforced (copyFiles : CopyFiles) : Prop :=
  ∀ files o try_glob_matching handledfiles, o.force_overwrite = false →
    Prog.Only NoUnlink (copyFiles files o try_glob_matching handledfiles)

variable {copyFiles : CopyFiles} {o : CopyOptions}

theorem copyEntries_noUnlink {recur : Text → Nat → Py Nat}
    (hrecur : ∀ dir handledfiles, Prog.Only NoUnlink (recur dir handledfiles)) (fuel : Nat)
    (chroot dir : Text) (entries files2 : List Text) (handledfiles : Nat) :
    Prog.Only NoUnlink
      (copyEntries recur fuel chroot dir o entries files2 handledfiles) := by
  induction entries generalizing files2 handledfiles with
  | nil => exact trivial
  | cons entry entries ih =>
      rw [copyEntries]
      refine only_bind (only_exceptOs ?_ fun e => ?_) fun acc => ih _ _
      · refine only_bind (only_looks (cachedlstat_looks _ _)) fun sbuf => ?_
        split
        · refine only_bind (only_makesWay (createParentPath_makesWay _ _ _ _)) fun _ => ?_
          exact only_bind (hrecur _ _) fun _ => trivial
        · exact trivial
      · split
        · exact trivial
        · exact trivial

theorem copyDirRecursive_noUnlink (hcopy : Unforced copyFiles)
    (hforce : o.force_overwrite = false) (fuel n : Nat) (chroot dir : Text)
    (handledfiles : Nat) :
    Prog.Only NoUnlink (copyDirRecursive copyFiles fuel chroot o n dir handledfiles) := by
  induction n generalizing dir handledfiles with
  | zero => exact trivial
  | succ n ih =>
      rw [copyDirRecursive]
      refine only_bind ⟨fun _ h => (by cases h), fun _ => trivial⟩ fun entries => ?_
      refine only_bind (copyEntries_noUnlink ih _ _ _ _ _ _) fun acc => ?_
      exact hcopy _ _ _ _ hforce

theorem copyMatching_noUnlink (hcopy : Unforced copyFiles) (hforce : o.force_overwrite = false)
    (try_glob_matching : Bool) (file : Text) (errno handledfiles : Nat) :
    Prog.Only NoUnlink (copyMatching copyFiles o try_glob_matching file errno handledfiles) := by
  rw [copyMatching]
  split
  · refine only_bind ⟨fun _ h => (by cases h), fun _ => trivial⟩ fun ret => ?_
    split
    · exact hcopy _ _ _ _ hforce
    · exact trivial
  · exact trivial

/-- The only `unlink` is the one of a file that is to be overwritten. -/
theorem deleteDest_noUnlink (hforce : o.force_overwrite = false) (chrootsb : Option StatBuf)
    (chrootrfile : Text) : Prog.Only NoUnlink (deleteDest o chrootsb chrootrfile) := by
  cases chrootsb with
  | none => exact trivial
  | some chrootsb =>
      rw [deleteDest, if_neg (by simp [hforce])]
      exact trivial

theorem copySymlink_noUnlink (hcopy : Unforced copyFiles) (hforce : o.force_overwrite = false)
    (file chrootrfile : Text) (handledfiles : Nat) :
    Prog.Only NoUnlink (copySymlink copyFiles o file chrootrfile handledfiles) := by
  refine only_bind ⟨fun _ h => (by cases h), fun _ => trivial⟩ fun realfile => ?_
  refine only_bind (only_exceptOs ⟨fun _ h => (by cases h), fun _ => trivial⟩ fun _ => trivial)
    fun _ => ?_
  refine only_bind ⟨fun _ h => (by cases h), fun _ => trivial⟩ fun _ => ?_
  split
  · exact trivial
  · split
    · exact hcopy _ _ _ _ hforce
    · exact hcopy _ _ _ _ hforce

theorem copyByFormat_noUnlink (hcopy : Unforced copyFiles) (hforce : o.force_overwrite = false)
    (fuel : Nat) (chroot file chrootrfile : Text) (sb : StatBuf) (handledfiles : Nat) :
    Prog.Only NoUnlink
      (copyByFormat copyFiles fuel chroot o file chrootrfile sb handledfiles) := by
  rw [copyByFormat]
  split
  · exact copySymlink_noUnlink hcopy hforce _ _ _
  · exact copyDirRecursive_noUnlink hcopy hforce _ _ _ _ _
  · refine only_bind (copyWithPermissions_noUnlink _ _ _ _ _) fun _ => ?_
    exact only_bind ⟨fun _ h => (by cases h), fun _ => trivial⟩ fun _ => trivial
  · exact only_bind (only_makesWay (copyDevice_makesWay _ _ _ _)) fun _ => trivial
  · exact only_bind (only_makesWay (copyDevice_makesWay _ _ _ _)) fun _ => trivial
  · exact trivial

theorem copyLibs_noUnlink (hcopy : Unforced copyFiles) (hforce : o.force_overwrite = false)
    (file : Text) (sb : StatBuf) (handledfiles : Nat) :
    Prog.Only NoUnlink (copyLibs copyFiles o file sb handledfiles) := by
  rw [copyLibs]
  split
  · refine only_bind ⟨fun _ h => (by cases h), fun _ => trivial⟩ fun libs => ?_
    exact hcopy _ _ _ _ hforce
  · exact trivial

theorem copyFound_noUnlink (hcopy : Unforced copyFiles) (hforce : o.force_overwrite = false)
    (fuel : Nat) (chroot file : Text) (sb : StatBuf) (dest : Dest) (handledfiles : Nat) :
    Prog.Only NoUnlink (copyFound copyFiles fuel chroot o file sb dest handledfiles) := by
  refine only_bind (only_makesWay (createParentPath_makesWay _ _ _ _)) fun _ => ?_
  refine only_bind (only_looks (resolveRealpath_looks _ _ _)) fun chrootrfile => ?_
  refine only_bind (only_looks (lookAtDest_looks _ _)) fun dest => ?_
  cases dest with
  | none => exact trivial
  | some chrootsb =>
      simp only
      split
      · exact trivial
      · refine only_bind (deleteDest_noUnlink hforce _ _) fun _ => ?_
        refine only_bind (only_makesWay (createParentPath_makesWay _ _ _ _)) fun _ => ?_
        refine only_bind (copyByFormat_noUnlink hcopy hforce _ _ _ _ _ _) fun _ => ?_
        exact only_bind (copyLibs_noUnlink hcopy hforce _ _ _) fun _ => trivial

theorem copyOne_noUnlink (hcopy : Unforced copyFiles) (hforce : o.force_overwrite = false)
    (fuel : Nat) (chroot : Text) (try_glob_matching : Bool) (file : Text) (dest : Dest)
    (handledfiles : Nat) :
    Prog.Only NoUnlink
      (copyOne copyFiles fuel chroot o try_glob_matching file dest handledfiles) := by
  refine only_bind ⟨fun _ h => (by cases h), fun _ => trivial⟩ fun found => ?_
  split
  · exact trivial
  · refine only_bind (only_attempt (only_looks (cachedlstat_looks _ _))) fun r => ?_
    split
    · exact copyFound_noUnlink hcopy hforce _ _ _ _ _ _
    · exact only_bind (copyMatching_noUnlink hcopy hforce _ _ _ _) fun _ => trivial
    · exact trivial
    · exact trivial

theorem copyLoop_noUnlink (hcopy : Unforced copyFiles) (hforce : o.force_overwrite = false)
    (fuel : Nat) (chroot : Text) (try_glob_matching : Bool) (binarieslist : List Text)
    (dest : Dest) (handledfiles : Nat) :
    Prog.Only NoUnlink
      (copyLoop copyFiles fuel chroot o try_glob_matching binarieslist dest handledfiles) := by
  induction binarieslist generalizing dest handledfiles with
  | nil => exact trivial
  | cons file binarieslist ih =>
      rw [copyLoop]
      exact only_bind (copyOne_noUnlink hcopy hforce _ _ _ _ _ _) fun _ => ih _ _

theorem copyBinariesAndLibs_unforced (fuel : Nat) (chroot : Text) :
    Unforced (copyBinariesAndLibs fuel chroot) := by
  induction fuel generalizing chroot with
  | zero => exact fun _ _ _ _ _ => trivial
  | succ n ih =>
      intro files o try_glob_matching handledfiles hforce
      rw [copyBinariesAndLibs]
      split
      · exact trivial
      · exact copyLoop_noUnlink (ih _) hforce _ _ _ _ _ _

end Jailkit.Tools
