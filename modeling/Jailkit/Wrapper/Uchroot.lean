import Jailkit.Wrapper.Chrootsh

/-!
jk_uchroot.c.
-/
namespace Jailkit.Wrapper

structure UchrootArgs where
  jail : Text
  executable : Text
  newargv : List Text

/-- The `getopt_long` loop: the options given last count. -/
def getoptLoop (jail executable : Option Text) : Nat → Cmd (Option Text × Option Text)
  | 0 => hang
  | fuel + 1 => do
      match ← perform .getoptLong with
      | .jail optarg => getoptLoop (some (endingSlash optarg)) executable fuel
      | .executable optarg => getoptLoop jail (some optarg) fuel
      | .help | .version => exit 1
      | .other => getoptLoop jail executable fuel
      | .done => pure (jail, executable)

def uchrootArgs (fuel : Nat) : Cmd UchrootArgs := do
  let (jail, executable) ← getoptLoop none none fuel
  let operands ← perform .operands
  match jail, executable with
  | some jail, some executable =>
      exitIf (!fileExists (← perform (.stat (jail ++ ['/'] ++ executable)))) 1
      pure ⟨jail, executable, executable :: operands⟩
  | _, _ => exit 1

/-- `allowed_jails` and `skip_injail_passwd_check` of the selected section. -/
def uchrootOptions (memory : Memory) (file user group : Text) :
    Option (List Text) × Nat :=
  match Ini.selectSection memory file user group with
  | none => (none, 0)
  | some (sec, unread) =>
      let pos := Ini.sectionPosition file unread sec
      ((Ini.stringOption memory file sec pos "allowed_jails").map (explodeString · ','),
        Ini.intOption memory file sec pos "skip_injail_passwd_check")

def readUchrootOptions (b : Build) (memory : Memory) (pw : Passwd) (gr_name : Text) :
    Cmd (List Text × Nat) := do
  let ret := testsafepath (← perform (.lstat b.iniprefix)) 0 0
  exitIf (without ret TESTPATH_GROUPW ≠ 0) 14
  match ← perform (.newIniparser (b.iniprefix ++ "/jk_uchroot.ini".toList)) with
  | none => exit 1
  | some file =>
      match uchrootOptions memory file pw.pw_name gr_name with
      | (none, _) => exit 1
      | (some allowed_jails, skip) => pure (allowed_jails, skip)

def enterDirectory (jail : Text) : Cmd Unit := do
  exitIf (!(← perform (.chdir jail))) 19
  match ← perform .getcwd with
  | none => exit 21
  | some test => exitIf (!dirsEqual jail test) 21

def uchrootInjail (skip_injail_passwd_check : Nat) (user : Option Text) (pw : Passwd)
    (gr_name : Text) : Cmd Unit :=
  if skip_injail_passwd_check = 0 then do
    let _ ← injailNames user pw gr_name
  else
    pure ()

def uchrootNames : List String := ["jk_uchroot", "-jk_uchroot"]

def uchrootMain (b : Build) (memory : Memory) (fuel : Nat) (argv : List Text) :
    Cmd Unit := do
  exitIf (programName argv ∉ uchrootNames.map String.toList) 1
  let useCapabilities ← setuidCheck b
  let (user, pw, gr_name) ← userInfo
  let args ← uchrootArgs fuel
  let (allowed_jails, skip_injail_passwd_check) ← readUchrootOptions b memory pw gr_name
  closeDescriptors fuel
  exitIf (!allowed_jails.any fun allowed => dirsEqual args.jail allowed) 21
  exitIf (!(← basicjailissafe args.jail)) 53
  enterDirectory args.jail
  exitIf (!(← perform (.chroot args.jail))) 33
  dropPrivileges b useCapabilities none
  uchrootInjail skip_injail_passwd_check user pw gr_name
  perform (.execv args.executable args.newargv)
  exit 111

end Jailkit.Wrapper
