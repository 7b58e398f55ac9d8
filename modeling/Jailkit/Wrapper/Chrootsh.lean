import Jailkit.Ini.Section
import Jailkit.Wrapper.Calls

/-!
jk_chrootsh.c.
-/
namespace Jailkit.Wrapper

/-- The options of the selected section; without one they keep these defaults. -/
structure ChrootshOptions where
  envs : Option (List Text) := none
  relax_home_group_permissions : Nat := 0
  relax_home_other_permissions : Nat := 0
  relax_home_group : Nat := 0
  relax_home_owner : Nat := 0
  injail_shell : Option Text := none
  skip_injail_passwd_check : Nat := 0

def chrootshOptions (memory : Memory) (file user group : Text) : ChrootshOptions :=
  match Ini.selectSection memory file user group with
  | none => {}
  | some (sec, unread) =>
      let pos := Ini.sectionPosition file unread sec
      let injail_shell := Ini.stringOption memory file sec pos "injail_shell"
      { envs := (Ini.stringOption memory file sec pos "env").map (explodeString · ',')
        relax_home_group_permissions :=
          Ini.intOption memory file sec pos "relax_home_group_permissions"
        relax_home_other_permissions :=
          Ini.intOption memory file sec pos "relax_home_other_permissions"
        relax_home_group := Ini.intOption memory file sec pos "relax_home_group"
        relax_home_owner := Ini.intOption memory file sec pos "relax_home_owner"
        injail_shell := injail_shell
        skip_injail_passwd_check :=
          if injail_shell.isSome then
            Ini.intOption memory file sec pos "skip_injail_passwd_check"
          else 0 }

/-- The checks of the home directory, given what `testsafepath` says of it: the exit
status, or `none` if main goes on. -/
def homeChecks (o : ChrootshOptions) (ret : Nat) : Option Nat :=
  if has ret TESTPATH_NOREGPATH then some 53
  else if o.relax_home_owner = 0 ∧ has ret TESTPATH_OWNER then some 53
  else if o.relax_home_group = 0 ∧ has ret TESTPATH_GROUP then some 53
  else if o.relax_home_group_permissions = 0 ∧ has ret TESTPATH_GROUPW then some 53
  else if o.relax_home_other_permissions = 0 ∧ has ret TESTPATH_OTHERW then some 53
  else none

def inArray (haystack : List Text) (needle : Text) : Bool := haystack.contains needle

/-- The walk of `unset_environ_except` along `environ`, at index `i`. -/
def unsetEnvironLoop (except : List Text) (i : Nat) : Nat → Cmd Unit
  | 0 => hang
  | fuel + 1 => do
      match (← perform .environ)[i]? with
      | none => pure ()
      | some entry =>
          if '=' ∉ entry then
            perform .clearenv
          else
            let key := entry.takeWhile (· ≠ '=')
            if inArray except key then
              unsetEnvironLoop except (i + 1) fuel
            else do
              perform (.unsetenv key)
              unsetEnvironLoop except 0 fuel

def unsetEnvironExcept (except : Option (List Text)) (fuel : Nat) : Cmd Unit := do
  let names := except.getD []
  if (← perform .environ) = [] ∨ names = [] then
    perform .clearenv
  else
    unsetEnvironLoop names 0 fuel

def containsSeparator (s : Text) : Bool := s.tails.any fun t => "/./".toList.isPrefixOf t

/-- From the options to the directory of the jail and the home in it. -/
def findJail (pw : Passwd) : Cmd (Text × Text) := do
  exitIf (pw.pw_gid ≠ (← perform .getgid)) 15
  exitIf (pw.pw_dir = []) 16
  exitIf (!containsSeparator pw.pw_dir) 17
  match getjaildir pw.pw_dir with
  | none => exit 17
  | some (jaildir, newhome) =>
      exitIf (!(← perform (.chdir jaildir))) 19
      match ← perform .getcwd with
      | none => exit 21
      | some test =>
          exitIf (!dirsEqual jaildir test) 21
          pure (jaildir, newhome)

def checkHome (o : ChrootshOptions) (pw : Passwd) (jaildir : Text) : Cmd Unit := do
  exitIf (!(← basicjailissafe jaildir)) 53
  let sbuf ← perform (.lstat pw.pw_dir)
  let ret := testsafepath sbuf (← perform .getuid) (← perform .getgid)
  match homeChecks o ret with
  | some status => exit status
  | none => pure ()

/-- What is known of the user inside the jail; the second entry is the one that
`internal_getpwuid` has found. -/
def injailUser (user : Option Text) (pw : Passwd) (gr_name newhome : Text) :
    Cmd (Passwd × Option Passwd) := do
  let inpw ← injailNames user pw gr_name
  if inpw.pw_dir = newhome then
    pure (inpw, none)
  else
    match ← perform (.internalGetpwuid "/etc/passwd".toList (← perform .getuid)) with
    | none => exit 39
    | some intpw =>
        exitIf (!dirsEqual intpw.pw_dir newhome) 39
        pure (inpw, some intpw)

/-- The shell is tested, but the result of the test is not used. -/
def startShell (pw : Passwd) (shell newhome : Text) (argv : List Text) : Cmd Unit := do
  let _ ← perform (.lstat shell)
  perform (.setenv "HOME".toList newhome)
  perform (.setenv "USER".toList pw.pw_name)
  perform (.setenv "USERNAME".toList pw.pw_name)
  perform (.setenv "SHELL".toList shell)
  exitIf (!(← perform (.chdir newhome))) 41
  perform (.execv shell (shell :: argv.tail))
  exit 111

def readChrootshOptions (b : Build) (memory : Memory) (pw : Passwd) (gr_name : Text) :
    Cmd ChrootshOptions := do
  let ret := testsafepath (← perform (.lstat b.iniprefix)) 0 0
  exitIf (without ret TESTPATH_GROUPW ≠ 0) 14
  match ← perform (.newIniparser (b.iniprefix ++ "/jk_chrootsh.ini".toList)) with
  | none => pure {}
  | some file => pure (chrootshOptions memory file pw.pw_name gr_name)

def chrootshNames : List String := ["jk_chrootsh", "su", "-su", "-jk_chrootsh"]

def jailUser (o : ChrootshOptions) (user : Option Text) (pw : Passwd)
    (gr_name newhome : Text) : Cmd (Passwd × Option Passwd) :=
  if o.skip_injail_passwd_check = 0 then injailUser user pw gr_name newhome
  else pure (pw, none)

/-- What runs with the new root and without the privileges. -/
def insideJail (o : ChrootshOptions) (user : Option Text) (pw : Passwd)
    (gr_name newhome : Text) (argv : List Text) : Cmd Unit := do
  let (inpw, intpw) ← jailUser o user pw gr_name newhome
  let shell := o.injail_shell.getD ((intpw.getD inpw).pw_shell)
  startShell inpw shell newhome argv

/-- The supplementary groups, which only jk_chrootsh sets. -/
def setSupplementary : Option (List Nat) → Cmd Unit
  | some gids => do exitIf (!(← perform (.setgroups gids))) 35
  | none => pure ()

def dropPrivileges (b : Build) (useCapabilities : Bool) (gids : Option (List Nat)) :
    Cmd Unit :=
  if useCapabilities then
    dropCapability b
  else do
    becomeGroup
    setSupplementary gids
    becomeUser

def chrootshMain (b : Build) (memory : Memory) (fuel : Nat) (argv : List Text) :
    Cmd Unit := do
  exitIf (programName argv ∉ chrootshNames.map String.toList) 1
  let useCapabilities ← setuidCheck b
  let (user, pw, gr_name) ← userInfo
  match ← perform .getgroups with
  | none => exit 13
  | some gids =>
      let o ← readChrootshOptions b memory pw gr_name
      closeDescriptors fuel
      unsetEnvironExcept o.envs fuel
      let (jaildir, newhome) ← findJail pw
      checkHome o pw jaildir
      exitIf (!(← perform (.chroot jaildir))) 33
      dropPrivileges b useCapabilities (some gids)
      insideJail o user pw gr_name newhome argv

end Jailkit.Wrapper
