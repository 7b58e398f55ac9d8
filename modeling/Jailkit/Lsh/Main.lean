import Jailkit.Ini.Section
import Jailkit.Wrapper.Calls

/-!
jk_lsh.c.
-/
namespace Jailkit.Lsh

open Wrapper

def expandLoop (executable : Text) : List Text → Cmd (Option Text)
  | [] => pure none
  | path :: paths => do
      let newpath := endingSlash path ++ executable
      if fileExists (← perform (.stat newpath)) then pure (some newpath)
      else expandLoop executable paths

def isAbsoluteFile (executable : Text) : Cmd Bool :=
  if executable.head? = some '/' then do
    pure (fileExists (← perform (.stat executable)))
  else
    pure false

/-- `expand_executable_w_path` -/
def expandExecutable (executable : Text) (allowed_paths : Option (List Text)) :
    Cmd (Option Text) := do
  if ← isAbsoluteFile executable then
    pure (some executable)
  else
    match allowed_paths with
    | none => pure none
    | some paths => expandLoop executable paths

/-- An `unsigned int` position passed on as an `int`. -/
def asInt (position : Int) : Int :=
  if position < 2 ^ 31 then position else position - 2 ^ 32

/-- The items read for the key `executables`, or `none` where its value is empty. -/
def readExecutables (memory : Memory) (file : Text) (sec : CString) (position : Int) :
    Option (List Text) :=
  let a := Ini.iniparserGetStringAtPosition file sec (cstring memory "executables".toList)
    (asInt position) 1024
  if a.ret = 0 then none else some (explodeString (cText a.buffer) ',')

def executableIsAllowed (memory : Memory) (file : Text) (sec : CString) (position : Int)
    (executable : Text) : Cmd Bool :=
  match readExecutables memory file sec position with
  | none => exit 5
  | some arr => pure (arr.contains executable)

/-- The umask is changed unless the key is reported absent. -/
def setUmask (memory : Memory) (file : Text) (sec : CString) (position : Int) : Cmd Unit :=
  let umaskval := Ini.iniparserGetOctalintAtPosition file sec
    (cstring memory "umask".toList) position
  if umaskval ≠ Ini.minusOne then do
    let _ ← perform (.umask umaskval)
  else
    pure ()

/-- An entry `key=value` of the option `environment`; others are passed over. -/
def setEntry (entry : Text) : Cmd Unit :=
  match explodeString entry '=' with
  | [key, value] => perform (.setenv key value)
  | _ => pure ()

def setEnvironment : List Text → Cmd Unit
  | [] => pure ()
  | entry :: entries => do
      setEntry entry
      setEnvironment entries

/-- `newargv`, by `wordexp` or by `explode_string`. -/
def splitCommand (memory : Memory) (file : Text) (sec : CString) (position : Int)
    (command : Text) : Cmd (Option (List Text)) :=
  if Ini.intOption memory file sec position "allow_word_expansion" ≠ 0 then
    perform (.wordexp command)
  else
    pure (some (explodeString command ' '))

/-- `newargv[0]` is used without a check that there is one. -/
def resolve (memory : Memory) (file : Text) (sec : CString) (position : Int)
    (newargv : Option (List Text)) : Cmd (List Text) :=
  match newargv with
  | some (word :: words) => do
      let paths := (Ini.stringOption memory file sec position "paths").map (explodeString · ',')
      let new ← expandExecutable word paths
      pure (new.getD word :: words)
  | _ => crash

/-- From the selected section to the check of the command. -/
def prepare (memory : Memory) (file : Text) (sec : CString) (position : Int)
    (command : Text) : Cmd (List Text) := do
  setUmask memory file sec position
  setEnvironment
    (((Ini.stringOption memory file sec position "environment").map
      (explodeString · ',')).getD [])
  let newargv ← splitCommand memory file sec position command
  resolve memory file sec position newargv

def runAllowed (memory : Memory) (file : Text) (sec : CString) (position : Int)
    (newargv : List Text) : Cmd Unit := do
  if ← executableIsAllowed memory file sec position (newargv.headD []) then
    perform (.execve (newargv.headD []) newargv)
  else
    exit 4

/-- The part of main that depends on the configuration. -/
def lshRun (memory : Memory) (file user group command : Text) : Cmd Unit :=
  match Ini.selectSection memory file user group with
  | none => exit 3
  | some (sec, unread) => do
      let position := Ini.sectionPosition file unread sec
      let newargv ← prepare memory file sec position command
      runAllowed memory file sec position newargv

def lshMain (b : Build) (memory : Memory) (argv : List Text) : Cmd Unit := do
  let user := (← perform (.getenv "USER".toList)).filter fun u => !u.isEmpty
  match ← getpw user with
  | none => exit 2
  | some pw =>
      exitIf (user.isSome ∧ pw.pw_uid ≠ (← perform .getuid)) 2
      match ← perform (.getgrgid (← perform .getgid)) with
      | none => exit 3
      | some gr_name =>
          exitIf (gr_name = []) 3
          exitIf (argv.length < 3 ∨ argv[argv.length - 2]? ≠ some "-c".toList) 7
          match ← perform (.newIniparser (b.iniprefix ++ "/jk_lsh.ini".toList)) with
          | none => exit 1
          | some file => lshRun memory file pw.pw_name gr_name (argv.getLastD [])

end Jailkit.Lsh
