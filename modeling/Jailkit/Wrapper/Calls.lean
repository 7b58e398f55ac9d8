import Jailkit.Lib.Program
import Jailkit.JkLib.SafePath

/-!
The system and library calls of the C programs, and the parts the wrappers share.
A call that returns 0 or -1 answers whether it succeeded; `none` is a NULL pointer.
-/
namespace Jailkit.Wrapper

structure Passwd where
  pw_name : Text
  pw_uid : Nat
  pw_gid : Nat
  pw_dir : Text
  pw_shell : Text
  deriving DecidableEq, Repr

/-- The three capability sets of a process, each as the capabilities in it. -/
structure Caps where
  permitted : List Nat
  effective : List Nat
  inheritable : List Nat
  deriving DecidableEq, Repr

inductive CapSet where
  | permitted
  | effective
  | inheritable
  deriving DecidableEq, Repr

/-- What `stat` answers: on failure the buffer keeps what it held. -/
inductive StatResult where
  | ok (s : Stat)
  | failed (errno : Nat) (garbage : Stat)
  deriving DecidableEq, Repr

/-- `file_exists`: on a failure other than `ENOENT` the type is read from the buffer
that `stat` has not filled. -/
def fileExists : StatResult → Bool
  | .ok s => s.isReg
  | .failed errno garbage => errno != 2 && garbage.isReg

inductive Opt where
  | jail (optarg : Text)
  | executable (optarg : Text)
  | help
  | version
  | other
  | done
  deriving DecidableEq, Repr

inductive Call where
  | getenv (name : Text)
  | environ
  | setenv (name value : Text)
  | unsetenv (name : Text)
  | clearenv
  | geteuid
  | getuid
  | getgid
  | getpwnam (name : Text)
  | getpwuid (uid : Nat)
  | getgrgid (gid : Nat)
  | getgroups
  | internalGetpwuid (filename : Text) (uid : Nat)
  | getoptLong
  | operands
  | lstat (path : Text)
  | stat (path : Text)
  | newIniparser (filename : Text)
  | getdtablesize
  | close (fd : Nat)
  | openNull
  | chdir (path : Text)
  | getcwd
  | getCurrentDirName
  | chroot (path : Text)
  | setgid (gid : Nat)
  | setgroups (gids : List Nat)
  | initgroups (user : Text) (gid : Nat)
  | setuid (uid : Nat)
  | capGetProc
  | capGetFlag (caps : Caps)
  | capClearFlag (caps : Caps) (set : CapSet)
  | capSetProc (caps : Caps)
  | umask (mask : Nat)
  | wordexp (s : Text)
  | execv (path : Text) (argv : List Text)
  | execve (path : Text) (argv : List Text)
  | exit (status : Nat)
  /-- A NULL pointer is followed. -/
  | crash
  /-- A loop has not ended within the bound given for it. -/
  | hang
  deriving DecidableEq, Repr

abbrev Res : Call → Type
  | .getenv _ => Option Text
  | .environ => List Text
  | .setenv _ _ | .unsetenv _ | .clearenv => Unit
  | .geteuid | .getuid | .getgid => Nat
  | .getpwnam _ | .getpwuid _ => Option Passwd
  | .getgrgid _ => Option Text
  | .getgroups => Option (List Nat)
  | .internalGetpwuid _ _ => Option Passwd
  | .getoptLong => Opt
  | .operands => List Text
  | .lstat _ => Option Stat
  | .stat _ => StatResult
  | .newIniparser _ => Option Text
  | .getdtablesize => Nat
  | .close _ => Option Nat
  | .openNull => Option Nat
  | .chdir _ => Bool
  | .getcwd | .getCurrentDirName => Option Text
  | .chroot _ | .setgid _ | .setgroups _ | .initgroups _ _ | .setuid _ => Bool
  | .capGetProc => Option Caps
  | .capGetFlag _ => Bool
  | .capClearFlag _ _ => Option Caps
  | .capSetProc _ => Bool
  | .umask _ => Nat
  | .wordexp _ => Option (List Text)
  | .execv _ _ | .execve _ _ => Unit
  | .exit _ | .crash | .hang => Empty

abbrev Cmd := Prog Call Res

def perform (c : Call) : Cmd (Res c) := Prog.perform c

def exit {α : Type} (status : Nat) : Cmd α :=
  .call (.exit status) fun r => Empty.elim r

def exitIf (b : Prop) [Decidable b] (status : Nat) : Cmd Unit :=
  if b then exit status else pure ()

def crash {α : Type} : Cmd α := .call .crash fun r => Empty.elim r

def hang {α : Type} : Cmd α := .call .hang fun r => Empty.elim r

/-- What the build has fixed: `HAVE_CAP_GET_PROC` and the paths. -/
structure Build where
  haveCapGetProc : Bool
  iniprefix : Text
  procmailpath : Text

def CAP_SYS_CHROOT : Nat := 18

def EINTR : Nat := 4

/-- `retval & ~bit`. -/
def without (retval bit : Nat) : Nat := retval &&& (0xff ^^^ bit)

/-- The name behind the last slash of `argv[0]`. -/
def programName (argv : List Text) : Text :=
  ((argv.headD []).splitOn '/').getLastD []

def haveCapabilities (b : Build) : Cmd Bool :=
  if b.haveCapGetProc then do
    match ← perform .capGetProc with
    | some caps => perform (.capGetFlag caps)
    | none => pure false
  else
    pure false

/-- Without the effective user 0, the result is `use_capabilities`. -/
def chooseMode (b : Build) : Cmd Bool := do
  if (← perform .geteuid) ≠ 0 then
    if ← haveCapabilities b then pure true else exit 11
  else
    pure false

def setuidCheck (b : Build) : Cmd Bool := do
  let useCapabilities ← chooseMode b
  exitIf ((← perform .getuid) = 0) 12
  pure useCapabilities

def getpw (user : Option Text) : Cmd (Option Passwd) :=
  match user with
  | some name => perform (.getpwnam name)
  | none => do perform (.getpwuid (← perform .getuid))

/-- `USER`, the entry of the user and the name of the group. -/
def userInfo : Cmd (Option Text × Passwd × Text) := do
  let user := (← perform (.getenv "USER".toList)).filter fun u => !u.isEmpty
  match ← getpw user with
  | none => exit 13
  | some pw =>
      exitIf (pw.pw_name = []) 13
      exitIf (user.any (· ≠ pw.pw_name)) 13
      exitIf (pw.pw_uid ≠ (← perform .getuid)) 13
      match ← perform (.getgrgid (← perform .getgid)) with
      | none => exit 13
      | some gr_name => pure (user, pw, gr_name)

/-- `while (close(i) != 0 && errno == EINTR);` -/
def closeRetry (i : Nat) : Nat → Cmd Unit
  | 0 => hang
  | fuel + 1 => do
      if (← perform (.close i)) = some EINTR then closeRetry i fuel else pure ()

/-- `while (--i > 2)` on an unsigned counter. -/
def closeLoop (fuel : Nat) : Nat → Cmd Unit
  | 0 => pure ()
  | i + 1 =>
      if i > 2 then do
        closeRetry i fuel
        closeLoop fuel i
      else
        pure ()

/-- `/dev/null` is opened until a descriptor above 2 comes back. -/
def reopenStandard : Nat → Cmd Unit
  | 0 => hang
  | fuel + 1 => do
      match ← perform .openNull with
      | none => exit 10
      | some fd =>
          if fd > 2 then do
            let _ ← perform (.close fd)
          else
            reopenStandard fuel

def closeDescriptors (fuel : Nat) : Cmd Unit := do
  let limit ← perform .getdtablesize
  closeLoop fuel (if limit = 0 then 2 ^ 32 else limit)
  reopenStandard fuel

def basicjailissafeLoop (path : Text) : List String → Cmd Bool
  | [] => pure true
  | dir :: dirs => do
      let ret := testsafepath (← perform (.lstat (path ++ dir.toList))) 0 0
      if without ret TESTPATH_NOREGPATH ≠ 0 then pure false
      else basicjailissafeLoop path dirs

def basicjailissafe (path : Text) : Cmd Bool := do
  if testsafepath (← perform (.lstat path)) 0 0 ≠ 0 then
    pure false
  else
    basicjailissafeLoop (endingSlash path) ["dev/", "etc/", "lib/", "usr/", "bin/", "sbin/"]

def clearCaps (caps : Caps) (status : Nat) (set : CapSet) : Cmd Caps := do
  match ← perform (.capClearFlag caps set) with
  | some caps => pure caps
  | none => exit status

/-- `CAP_SYS_CHROOT` is cleared in all three sets. -/
def dropCapability (b : Build) : Cmd Unit :=
  if b.haveCapGetProc then do
    match ← perform .capGetProc with
    | none => exit 101
    | some caps =>
        let caps ← clearCaps caps 102 .permitted
        let caps ← clearCaps caps 103 .effective
        let caps ← clearCaps caps 104 .inheritable
        exitIf (!(← perform (.capSetProc caps))) 105
  else
    exit 333

def becomeGroup : Cmd Unit := do
  exitIf (!(← perform (.setgid (← perform .getgid)))) 34

def becomeUser : Cmd Unit := do
  exitIf (!(← perform (.setuid (← perform .getuid)))) 36

/-- The names and numbers of user and group have to be the same inside the jail. -/
def injailNames (user : Option Text) (pw : Passwd) (gr_name : Text) : Cmd Passwd := do
  match ← getpw user with
  | none => exit 35
  | some inpw =>
      exitIf (inpw.pw_uid ≠ (← perform .getuid)) 35
      match ← perform (.getgrgid (← perform .getgid)) with
      | none => exit 35
      | some ingr_name =>
          exitIf (inpw.pw_name ≠ pw.pw_name) 37
          exitIf (ingr_name ≠ gr_name) 37
          pure inpw

theorem only_exit {α : Type} {P : Call → Prop} {n : Nat} (h : P (.exit n)) :
    (exit n : Cmd α).Only P := ⟨h, fun r => r.elim⟩

theorem only_exitIf {P : Call → Prop} {b : Prop} [Decidable b] {n : Nat} (h : P (.exit n)) :
    (exitIf b n).Only P := by
  rw [exitIf]
  split
  · exact only_exit h
  · trivial

theorem only_call {P : Call → Prop} {c : Call} (h : P c) : (perform c).Only P :=
  (Prog.only_perform c).mpr h

end Jailkit.Wrapper
