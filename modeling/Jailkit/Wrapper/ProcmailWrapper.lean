import Jailkit.Wrapper.Calls

/-!
jk_procmailwrapper.c.
-/
namespace Jailkit.Wrapper

def userIsChrooted (homedir : Text) : Bool := homedir.contains '.'

/-- The normal procmail, for a user without a jail. -/
def runUnjailed (b : Build) (pw : Passwd) (argv : List Text) : Cmd Unit := do
  becomeGroup
  exitIf (!(← perform (.initgroups pw.pw_name (← perform .getgid)))) 35
  becomeUser
  perform (.execve b.procmailpath argv)
  exit 1

/-- `for (i=getdtablesize();i>3;i--)` -/
def closeDownTo (fuel : Nat) : Nat → Cmd Unit
  | 0 => pure ()
  | i + 1 =>
      if i + 1 > 3 then do
        closeRetry (i + 1) fuel
        closeDownTo fuel i
      else
        pure ()

/-- The checks up to `chroot`: the group name, the jail and the home in it. -/
def procmailJail (pw : Passwd) : Cmd (Text × Text × Text) := do
  match ← perform (.getgrgid (← perform .getgid)) with
  | none => exit 13
  | some gr_name =>
      perform .clearenv
      exitIf (pw.pw_gid ≠ (← perform .getgid)) 15
      exitIf (pw.pw_dir = [] ∨ '.' ∉ pw.pw_dir) 17
      match getjaildir pw.pw_dir with
      | none => exit 17
      | some (jaildir, newhome) =>
          exitIf (!(← perform (.chdir jaildir))) 19
          match ← perform .getCurrentDirName with
          | none => crash
          | some test =>
              exitIf (jaildir ≠ test) 21
              exitIf (testsafepath (← perform (.lstat jaildir)) 0 0 ≠ 0) 53
              let sbuf ← perform (.lstat pw.pw_dir)
              let ret := testsafepath sbuf (← perform .getuid) (← perform .getgid)
              exitIf (has ret TESTPATH_NOREGPATH) 53
              exitIf (has ret TESTPATH_OWNER) 53
              pure (gr_name, jaildir, newhome)

def injailPasswd (pw : Passwd) (gr_name newhome : Text) : Cmd Passwd := do
  let inpw ← perform (.getpwuid (← perform .getuid))
  let ingr ← perform (.getgrgid (← perform .getgid))
  match inpw, ingr with
  | some inpw, some ingr_name =>
      exitIf (inpw.pw_name ≠ pw.pw_name ∨ ingr_name ≠ gr_name) 37
      exitIf (inpw.pw_dir ≠ newhome) 39
      pure inpw
  | _, _ => exit 35

/-- The program in the jail is tested, but the result of the test is not used. -/
def startProcmail (b : Build) (pw : Passwd) (newhome : Text) (argv : List Text) :
    Cmd Unit := do
  let _ ← perform (.lstat b.procmailpath)
  perform (.setenv "HOME".toList newhome)
  perform (.setenv "USER".toList pw.pw_name)
  exitIf (!(← perform (.chdir newhome))) 41
  perform (.execv b.procmailpath (b.procmailpath :: argv.tail))
  exit 111

def procmailNames : List String := ["jk_procmailwrapper", "-jk_procmailwrapper"]

def requireSetuidRoot : Cmd Unit := do
  exitIf ((← perform .geteuid) ≠ 0) 11
  exitIf ((← perform .getuid) = 0) 11

def dropToUser (pw : Passwd) : Cmd Unit := do
  becomeGroup
  exitIf (!(← perform (.initgroups pw.pw_name (← perform .getgid)))) 35
  becomeUser

def procmailMain (b : Build) (fuel : Nat) (argv : List Text) : Cmd Unit := do
  match ← perform (.getpwuid (← perform .getuid)) with
  | none => crash
  | some pw =>
      if !userIsChrooted pw.pw_dir then
        runUnjailed b pw argv
      else do
        exitIf (programName argv ∉ procmailNames.map String.toList) 1
        closeDownTo fuel (← perform .getdtablesize)
        requireSetuidRoot
        let (gr_name, jaildir, newhome) ← procmailJail pw
        exitIf (!(← perform (.chroot jaildir))) 33
        dropToUser pw
        let inpw ← injailPasswd pw gr_name newhome
        startProcmail b inpw newhome argv

end Jailkit.Wrapper
