import Jailkit.Tools.InitAccounts
import Jailkit.Tools.InitCopies
import Jailkit.Tools.LogSocket
import Jailkit.Tools.Populating

/-!
All that jk_init does for its sections behind their includes, on Linux: the paths, the empty
directories, the account files, the proc mount and the log socket, and the devices.
-/
namespace Jailkit.Tools

open JkLib Raising
open Fs (isAbsolute)

/-- The directories of `emptydirs`, without the permissions of the real ones. -/
def makeEmptydirs (fuel : Nat) (chroot : Text) : List Text → Py Unit
  | [] => pure ()
  | edir :: emptydirs => do
      let _ ← createParentPath fuel chroot edir ⟨false, false, false⟩
      makeEmptydirs fuel chroot emptydirs

/-- The devices of a section, for those that have been made; the result is `diddevices`. -/
def copyDevices (fuel : Nat) (chroot : Text) : List Text → List Text → Py (List Text)
  | [], diddevices => pure diddevices
  | tmp :: devices, diddevices =>
      if tmp ∈ diddevices then copyDevices fuel chroot devices diddevices
      else do
        let _ ← createParentPath fuel chroot (dirname tmp) ⟨false, false, false⟩
        copyDevice fuel chroot tmp false
        copyDevices fuel chroot devices (diddevices ++ [tmp])

structure Did where
  didfiles : Nat
  diddevices : List Text
  didusers : List Text
  didgroups : List Text

/-- `has_option`, with a value that is not empty. -/
def asksFor (cfg : Cfg) (section_ option : Text) : Bool :=
  match cfg.get section_ option with
  | some (_ :: _) => true
  | _ => false

/-- The program `mount`, which is started then, is left out. -/
def procMount (chroot : Text) : Py Unit :=
  writeFile "/etc/fstab".toList true
    ("proc \t".toList ++ chroot ++ "proc \tproc \tdefaults \t0 \t0\n".toList)

def jkSocketdIni : Text := "/etc/jailkit/jk_socketd.ini".toList

def makeDev (chroot : Text) : Py Unit := do
  if ← exists_ (chroot ++ "/dev".toList) then pure ()
  else mkdir (chroot ++ "/dev".toList) 0o777

/-- `logsocket`, call for call. -/
def registerLogsocket (chroot : Text) : Py Unit := do
  makeDev chroot
  let content ← openRead jkSocketdIni
  if ∃ line ∈ readlines content, line.dropLast = logHeader chroot then pure ()
  else writeFile jkSocketdIni true (logEntry chroot)

def ifAsked (cfg : Cfg) (section_ option : Text) (p : Py Unit) : Py Unit :=
  if asksFor cfg section_ option then p else pure ()

/-- What `handle_cfg_section` does behind the includes, for one section. Both lists of names
are compared with `didusers`. -/
def sectionFiles (fuel : Nat) (a : InitArgs) (cfg : Cfg) (section_ : Text) (did : Did) :
    Py Did := do
  let didfiles ← sectionCopies fuel a cfg section_ did.didfiles
  makeEmptydirs fuel (stripLast a.chroot) (configGetOptionAsList cfg section_ "emptydirs".toList)
  let (users, groups) ← populatePasswdAndGroup fuel (stripLast a.chroot)
    (notDone did.didusers (usersListed cfg section_))
    (notDone did.didusers (groupsListed cfg section_))
  ifAsked cfg section_ "need_proc".toList (procMount (stripLast a.chroot))
  ifAsked cfg section_ "need_logsocket".toList (registerLogsocket (stripLast a.chroot))
  let diddevices ← copyDevices fuel (stripLast a.chroot)
    (configGetOptionAsList cfg section_ "devices".toList) did.diddevices
  pure ⟨didfiles, diddevices, did.didusers ++ users, did.didusers ++ users ++ groups⟩

/-- The sections, in the order in which their bodies run. -/
def initFiles (fuel : Nat) (a : InitArgs) (cfg : Cfg) : List Text → Did → Py Did
  | [], did => pure did
  | section_ :: order, did => do
      let did ← sectionFiles fuel a cfg section_ did
      initFiles fuel a cfg order did

/-- No section asks for the proc mount or for the log socket, for which files outside of the
jail are written. -/
def NoOutsideFiles (cfg : Cfg) (order : List Text) : Prop :=
  ∀ section_ ∈ order, asksFor cfg section_ "need_proc".toList = false ∧
    asksFor cfg section_ "need_logsocket".toList = false

/-- No device that a section names is above the jail. -/
def DevicesBelow (chroot : Text) (cfg : Cfg) (order : List Text) : Prop :=
  ∀ section_ ∈ order, ∀ tmp ∈ configGetOptionAsList cfg section_ "devices".toList,
    names chroot <+: names (chroot ++ '/' :: tmp)

section

variable {umask : Nat} {chroot : Text} {s : World} {a : InitArgs} {cfg : Cfg}

theorem copyIfAny_stays {copyFiles : CopyFiles} (hcopy : CopiesInside umask chroot copyFiles)
    (paths : List Text) (o : CopyOptions) (try_glob_matching : Bool) (ref : Nat)
    (hroot : Rooted s.fs chroot) :
    Stays umask chroot (copyIfAny copyFiles paths o try_glob_matching ref)
      (fun _ _ => True) s := by
  rw [copyIfAny]
  split
  · exact hcopy paths o try_glob_matching ref s hroot
  · exact along_pure _ trivial

theorem sectionCopies_stays (fuel : Nat) (section_ : Text) (ref : Nat)
    (hC : names (stripLast a.chroot) ≠ []) (hroot : Rooted s.fs (stripLast a.chroot)) :
    Stays umask (stripLast a.chroot) (sectionCopies fuel a cfg section_ ref)
      (fun _ _ => True) s := by
  have hcopy : CopiesInside umask (stripLast a.chroot)
      (copyBinariesAndLibs fuel (stripLast a.chroot)) := copyBinariesAndLibs_stays fuel hC
  rw [sectionCopies]
  split
  · exact along_raise _
  · apply along_bind (stays_looks (findFilesInPath_only (fun _ => trivial) a _))
    intro paths2 s₁ hs₁ _
    have hroot₁ := rooted_keeps hroot hs₁
    apply along_bind (hcopy paths2 _ true ref s₁ hroot₁)
    intro ref s₂ hs₂ _
    have hroot₂ := rooted_keeps hroot₁ hs₂
    apply along_bind (copyIfAny_stays hcopy _ _ true ref hroot₂)
    intro ref s₃ hs₃ _
    exact copyIfAny_stays hcopy _ _ false ref (rooted_keeps hroot₂ hs₃)

theorem makeEmptydirs_stays (fuel : Nat) (emptydirs : List Text) (hroot : Rooted s.fs chroot) :
    Stays umask chroot (makeEmptydirs fuel chroot emptydirs) (fun _ _ => True) s := by
  induction emptydirs generalizing s with
  | nil => exact along_pure () trivial
  | cons edir emptydirs ih =>
      rw [makeEmptydirs]
      apply along_bind (stays_of_makes (createParentPath_makes fuel _ edir s hroot))
      intro _ s₁ hs₁ _
      exact ih (rooted_keeps hroot hs₁)

/-- A device is made below the directory that has been made for it. -/
theorem copyDevices_stays (fuel : Nat) (devices diddevices : List Text)
    (hC : names chroot ≠ [])
    (hbelow : ∀ tmp ∈ devices, names chroot <+: names (chroot ++ '/' :: tmp))
    (hroot : Rooted s.fs chroot) :
    Stays umask chroot (copyDevices fuel chroot devices diddevices) (fun _ _ => True) s := by
  induction devices generalizing diddevices s with
  | nil => exact along_pure _ trivial
  | cons tmp devices ih =>
      have hrest := fun tmp htmp => hbelow tmp (List.mem_cons_of_mem _ htmp)
      rw [copyDevices]
      split
      · exact ih diddevices hrest hroot
      · apply along_bind (stays_of_makes (createParentPath_makes fuel _ (dirname tmp) s hroot))
        intro _ s₁ hs₁ hparent
        have hroot₁ := rooted_keeps hroot hs₁
        have habs : isAbsolute tmp = true :=
          decide_eq_true (dirname_head (of_decide_eq_true hparent.1))
        apply along_bind (stays_of_makes (copyDevice_makes fuel false hC habs
          (hbelow tmp List.mem_cons_self) s₁ hroot₁))
        intro _ s₂ hs₂ _
        exact ih (diddevices ++ [tmp]) hrest (rooted_keeps hroot₁ hs₂)

theorem ifAsked_stays {section_ option : Text} (p : Py Unit)
    (hnot : asksFor cfg section_ option = false) :
    Stays umask chroot (ifAsked cfg section_ option p) (fun _ _ => True) s := by
  rw [ifAsked, hnot]
  exact along_pure () trivial

theorem sectionFiles_stays (fuel : Nat) (section_ : Text) (did : Did)
    (hC : names (stripLast a.chroot) ≠ [])
    (hbelow : ∀ tmp ∈ configGetOptionAsList cfg section_ "devices".toList,
      names (stripLast a.chroot) <+: names (stripLast a.chroot ++ '/' :: tmp))
    (hinside : asksFor cfg section_ "need_proc".toList = false ∧
      asksFor cfg section_ "need_logsocket".toList = false)
    (hroot : Rooted s.fs (stripLast a.chroot)) :
    Stays umask (stripLast a.chroot) (sectionFiles fuel a cfg section_ did)
      (fun _ _ => True) s := by
  apply along_bind (sectionCopies_stays fuel section_ did.didfiles hC hroot)
  intro didfiles s₁ hs₁ _
  have hroot₁ := rooted_keeps hroot hs₁
  apply along_bind (makeEmptydirs_stays fuel _ hroot₁)
  intro _ s₂ hs₂ _
  have hroot₂ := rooted_keeps hroot₁ hs₂
  apply along_bind (populatePasswdAndGroup_stays fuel _ _ hC hroot₂)
  intro r s₃ hs₃ _
  have hroot₃ := rooted_keeps hroot₂ hs₃
  apply along_bind (ifAsked_stays _ hinside.1)
  intro _ s₄ hs₄ _
  have hroot₄ := rooted_keeps hroot₃ hs₄
  apply along_bind (ifAsked_stays _ hinside.2)
  intro _ s₅ hs₅ _
  apply along_bind (copyDevices_stays fuel _ did.diddevices hC hbelow (rooted_keeps hroot₄ hs₅))
  intro diddevices s₆ _ _
  exact along_pure _ trivial

/-- By induction on the sections; what one of them leaves is a jail for the next. -/
theorem initFiles_stays (fuel : Nat) (order : List Text) (did : Did)
    (hC : names (stripLast a.chroot) ≠ []) (hbelow : DevicesBelow (stripLast a.chroot) cfg order)
    (hinside : NoOutsideFiles cfg order) (hroot : Rooted s.fs (stripLast a.chroot)) :
    Stays umask (stripLast a.chroot) (initFiles fuel a cfg order did) (fun _ _ => True) s := by
  induction order generalizing did s with
  | nil => exact along_pure did trivial
  | cons section_ order ih =>
      rw [initFiles]
      apply along_bind (sectionFiles_stays fuel section_ did hC
        (hbelow section_ List.mem_cons_self) (hinside section_ List.mem_cons_self) hroot)
      intro did s₁ hs₁ _
      exact ih did (fun section_ h => hbelow section_ (List.mem_cons_of_mem _ h))
        (fun section_ h => hinside section_ (List.mem_cons_of_mem _ h)) (rooted_keeps hroot hs₁)

theorem actsInside_root (s : World) (c : Call) : ActsInside [] s c := by
  cases c with
  | mkdir _ _ | symlink _ _ | link _ _ | mknod _ _ _ _ | unlink _ | rmtree _ | copyfile _ _
  | writeFile _ _ _ | utime _ _ _ | chown _ _ _ | chmod _ _ => exact fun _ _ => List.nil_prefix
  | _ => exact trivial

end

/-- In a run over any sections in which the code gets what it relies on, whatever is made,
changed or removed is at the jail's location or below. -/
theorem initFiles_acts_inside {umask fuel : Nat} {a : InitArgs} {cfg : Cfg} {order : List Text}
    {did : Did} {s₀ s s' : World} {c : Call} {r : Res c}
    (hroot : Rooted s₀.fs (stripLast a.chroot))
    (hbelow : DevicesBelow (stripLast a.chroot) cfg order) (hinside : NoOutsideFiles cfg order)
    (hreach : Prog.Reaches (SafeStep umask (stripLast a.chroot)) (initFiles fuel a cfg order did)
      s₀ c s)
    (hstep : SafeStep umask (stripLast a.chroot) s c r s') :
    ActsInside (names (stripLast a.chroot)) s c := by
  by_cases hC : names (stripLast a.chroot) = []
  · rw [hC]
    exact actsInside_root s c
  · have hruns : Stays umask (stripLast a.chroot) (initFiles fuel a cfg order did)
        (fun _ _ => True) s₀ := initFiles_stays fuel order did hC hbelow hinside hroot
    exact Prog.guard_of_reaches hruns hreach r s' hstep

def emptydirCfg : Cfg :=
  [⟨"d".toList, [("emptydirs".toList, "/a/new".toList), ("users".toList, "www".toList)]⟩,
    ⟨"s".toList, [("paths_w_owner".toList, "/a/f".toList), ("devices".toList, "/dev/null".toList)]⟩]

def jailArgs : InitArgs := ⟨false, false, "/jail/".toList, [], "/".toList⟩

def userSystem : World :=
  let world := worldOf 0o644 ((["jail".toList, "a".toList], .symlink "b".toList) ::
    (["a".toList, "f".toList], .file 1) :: (["etc".toList, "passwd".toList], .file 2) ::
    (["etc".toList, "group".toList], .file 3) ::
    dirsAt [["jail".toList], ["jail".toList, "b".toList], ["a".toList],
      ["a".toList, "new".toList], ["etc".toList]])
  let fs := world.fs.setInode 2 ⟨.reg, rootAttrs 0o644, wwwPasswd, 0⟩
  { world with fs := fs.setInode 3 ⟨.reg, rootAttrs 0o644, wwwGroup, 0⟩ }

theorem initFiles_acts_inside_link :
    ∃ s, Prog.Reaches (SafeStep 0o022 "/jail".toList)
        (initFiles 9 jailArgs emptydirCfg ["d".toList, "s".toList] ⟨0, [], [], []⟩) userSystem
        (.copyfile "/a/f".toList "/jail/b/f".toList) s ∧
      s.fs.contentAt "/jail/etc/passwd".toList = wwwPasswd ∧
      ActsInside ["jail".toList] s (.copyfile "/a/f".toList "/jail/b/f".toList) := by
  have hrun : ((initFiles 9 jailArgs emptydirCfg ["d".toList, "s".toList] ⟨0, [], [], []⟩).drive
      (executeSafe 0o022 "/jail".toList) isCopyfile userSystem).any
        (fun step => decide (step.1 = .copyfile "/a/f".toList "/jail/b/f".toList) &&
          decide (NoLinkAt step.2.fs "/jail/b/f".toList) &&
          decide (step.2.fs.contentAt "/jail/etc/passwd".toList = wwwPasswd)) = true := by
    decide +kernel
  obtain ⟨c, s, hreach, hcheck⟩ :=
    Prog.reaches_of_any (safeStep_executeSafe 0o022 "/jail".toList) hrun
  simp only [Bool.and_eq_true, decide_eq_true_eq] at hcheck
  obtain ⟨⟨hc, hlink⟩, hpasswd⟩ := hcheck
  subst hc
  have hstrip : stripLast jailArgs.chroot = "/jail".toList := by decide
  have hjail : names "/jail".toList = ["jail".toList] := by decide
  have hroot : Rooted userSystem.fs (stripLast jailArgs.chroot) := by
    rw [hstrip]
    refine ⟨rfl, ?_, ?_⟩
    · decide +kernel
    · decide +kernel
  have hbelow : DevicesBelow (stripLast jailArgs.chroot) emptydirCfg
      ["d".toList, "s".toList] := by
    rw [hstrip]
    unfold DevicesBelow
    decide +kernel
  have hinside : NoOutsideFiles emptydirCfg ["d".toList, "s".toList] := by
    unfold NoOutsideFiles
    decide +kernel
  refine ⟨s, hreach, hpasswd, ?_⟩
  rw [← hjail, ← hstrip]
  rw [← hstrip] at hreach
  exact initFiles_acts_inside hroot hbelow hinside hreach
    (by rw [hstrip]; exact ⟨posix_execute 0o022 s _, hlink⟩)

end Jailkit.Tools
