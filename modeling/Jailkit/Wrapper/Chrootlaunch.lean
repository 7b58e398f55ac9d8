import Jailkit.Ini.Parser
import Jailkit.Wrapper.Calls

/-!
jk_chrootlaunch.c. The pid file of the option `-p` is left out.
-/
namespace Jailkit.Wrapper

/-- There is no loop that opens `/dev/null` behind this one. -/
def chrootlaunchCloseDescriptors (fuel : Nat) : Cmd Unit := do
  let limit ← perform .getdtablesize
  closeLoop fuel (if limit = 0 then 2 ^ 32 else limit)

/-- The rest of `main`; a `uid` or `gid` of -1 is `none`. -/
def chrootlaunchEnter (fuel : Nat) (jail exec : Text) (newargv : List Text)
    (uid gid : Option Nat) : Cmd Unit := do
  chrootlaunchCloseDescriptors fuel
  exitIf (!(← perform (.chdir jail))) 33
  exitIf (!(← perform (.chroot jail))) 35
  match gid with
  | none => pure ()
  | some gid => exitIf (!(← perform (.setgid gid))) 37
  match uid with
  | none => pure ()
  | some uid => exitIf (!(← perform (.setuid uid))) 39
  perform (.execv exec newargv)
  Wrapper.exit 31

inductive LaunchOpt where
  | jail (optarg : Text)
  | user (optarg : Text)
  | group (optarg : Text)
  | exec (optarg : Text)
  | help
  | version
  | other
  deriving DecidableEq, Repr

structure LaunchArgs where
  jail : Option Text
  user : Option Text
  group : Option Text
  exec : Option Text
  deriving DecidableEq, Repr

/-- The `getopt_long` loop; `none` where the usage is printed. -/
def launchArgs (args : LaunchArgs) : List LaunchOpt → Option LaunchArgs
  | [] => some args
  | .jail optarg :: opts => launchArgs { args with jail := some (endingSlash optarg) } opts
  | .user optarg :: opts => launchArgs { args with user := some optarg } opts
  | .group optarg :: opts => launchArgs { args with group := some optarg } opts
  | .exec optarg :: opts => launchArgs { args with exec := some optarg } opts
  | .help :: _ | .version :: _ => none
  | .other :: opts => launchArgs args opts

/-- The numbers in the entries that the passwd and the group database have. -/
structure Accounts where
  getpwuid : Nat → Option UInt32
  getpwnam : Text → Option UInt32
  getgrgid : Nat → Option UInt32
  getgrnam : Text → Option UInt32

def LONG_MAX : Nat := 2 ^ 63 - 1

/-- `strtol` of a text that begins with a digit. -/
def strtol (t : Text) : Nat := min (Ini.digits 10 0 t) LONG_MAX

/-- The entry that is looked up for a name or a number; the number is put into an `int`. -/
def lookupId (byNumber : Nat → Option UInt32) (byName : Text → Option UInt32)
    (tmpstr : Text) : Option UInt32 :=
  if tmpstr.head?.any Char.isDigit then
    let tmp := strtol tmpstr % 2 ^ 32
    if tmp < 2 ^ 31 then byNumber tmp else none
  else
    byName tmpstr

/-- The bit pattern of the `int` -1, which stands for an option that is not given. -/
def noId : UInt32 := 0xffffffff

def parseId (byNumber : Nat → Option UInt32) (byName : Text → Option UInt32) :
    Option Text → Cmd UInt32
  | none => pure noId
  | some tmpstr =>
      match lookupId byNumber byName tmpstr with
      | none => Wrapper.exit 1
      | some id => pure id

def parseUid (db : Accounts) : Option Text → Cmd UInt32 := parseId db.getpwuid db.getpwnam

def parseGid (db : Accounts) : Option Text → Cmd UInt32 := parseId db.getgrgid db.getgrnam

def execIsUnsafe (sbuf : Stat) : Bool :=
  sbuf.isLnk || (sbuf.isReg && (sbuf.mode S_ISUID || sbuf.mode S_ISGID)) ||
    (sbuf.mode S_IWGRP || sbuf.mode S_IWOTH) || (sbuf.st_uid != 0 || sbuf.st_gid != 0)

/-- The executable is named relative to the jail, unless its name begins with the jail's. -/
def combineExec (jail exec : Text) : Text := if jail <+: exec then exec else jail ++ exec

/-- The jail, and the executable as it is named in the jail. -/
def testJailAndExec : Option Text → Option Text → Cmd (Text × Text)
  | none, _ => Wrapper.exit 21
  | some _, none => Wrapper.exit 23
  | some jail, some exec => do
      exitIf (jail.head? ≠ some '/') 27
      exitIf (!(← basicjailissafe jail)) 25
      let tmpstr := combineExec jail exec
      match ← perform (.lstat tmpstr) with
      | none => Wrapper.exit 29
      | some sbuf =>
          exitIf (execIsUnsafe sbuf) 29
          pure (jail, tmpstr.drop jail.length)

/-- A number as `setuid` and `setgid` get it. -/
def givenId (id : UInt32) : Option Nat := if id = noId then none else some id.toNat

def chrootlaunchMain (db : Accounts) (opts : List LaunchOpt) (operands : List Text)
    (fuel : Nat) : Cmd Unit :=
  match launchArgs ⟨none, none, none, none⟩ opts with
  | none => Wrapper.exit 1
  | some args => do
      let uid ← parseUid db args.user
      let gid ← parseGid db args.group
      let (jail, exec) ← testJailAndExec args.jail args.exec
      chrootlaunchEnter fuel jail exec (exec :: operands) (givenId uid) (givenId gid)

end Jailkit.Wrapper
