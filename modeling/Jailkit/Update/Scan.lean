import Jailkit.Tools.Copy

/-!
jk_update: what is found outdated or deprecated in a jail, and its removal. The fuel is
Python's recursion limit.
-/
namespace Jailkit.Update

open JkLib Raising Tools

/-- The blocks of 4096 bytes in turn, until they differ or the first file ends. -/
def compareBlocks : Nat → Text → Text → Bool
  | 0, _, _ => false
  | n + 1, fA, fB =>
      let bufA := fA.take 4096
      let bufB := fB.take 4096
      if bufA ≠ bufB then false
      else if bufA = [] then true
      else compareBlocks n (fA.drop 4096) (fB.drop 4096)

def compareContent (fileA fileB : Text) : Py Bool := do
  match ← attempt (do
    let fA ← openRead fileA
    let fB ← openRead fileB
    pure (compareBlocks (fA.length + 1) fA fB)) with
  | .ok retval => pure retval
  | .error (.osError _) => pure false
  | .error .osErrorText => pure false
  | .error e => raise e

/-- `comparemetadata` with the result of `lstat` for the first file. -/
def compareMetadata (fileA fileB : Text) (sbA : SizedStat) : Py Bool := do
  let sbB ← lstatSize fileB
  if sbB.buf.attrs.mtime < sbA.buf.attrs.mtime then
    if sbA.size ≠ sbB.size then pure false
    else if (sbA.buf.format = .lnk) ≠ (sbB.buf.format = .lnk) then pure false
    else if sbA.buf.format = .lnk then do
      let targetA ← readlink .source fileA
      let targetB ← readlink .dest fileB
      pure (targetA = targetB)
    else pure true
  else pure true

/-- `need_update`: 0 for a file that is up to date, 1 for one that is not, 2 for one that
has no original. -/
def needUpdate (original injail : Text) (origstatbuf : SizedStat) : Py Nat := do
  match ← attempt (do
    if ← compareMetadata original injail origstatbuf then do
      if ← compareContent original injail then pure 0 else pure 1
    else pure 1) with
  | .ok ret => pure ret
  | .error (.osError errno) => if errno = ENOENT then pure 2 else pure 0
  | .error .osErrorText => raise .valueError
  | .error e => raise e

/-- `files2update` and `files2clean`, without the jail in front. -/
structure Found where
  files2update : List Text
  files2clean : List Text
  deriving DecidableEq, Repr

def Found.update (found : Found) (file : Text) : Found :=
  { found with files2update := found.files2update ++ [file] }

def Found.clean (found : Found) (file : Text) : Found :=
  { found with files2clean := found.files2clean ++ [file] }

/-- The handler of an `OSError` in the scan: only a missing original counts. -/
def exceptMissing (p : Py Found) (found : Found) (file : Text) : Py Found := do
  match ← attempt p with
  | .ok found => pure found
  | .error (.osError errno) => if errno = ENOENT then pure (found.clean file) else pure found
  | .error .osErrorText => raise .valueError
  | .error e => raise e

/-- One name in the jail, judged by what stands there on the real system. -/
def checkFile (recur : Text → Found → Py Found) (jail file : Text) (found : Found) :
    Py Found :=
  exceptMissing (do
    let sbuf ← lstatSize file
    match sbuf.buf.format with
    | .dir => recur (file ++ ['/']) found
    | .reg => do
        let ret ← needUpdate file (jail ++ file) sbuf
        if ret = 1 then pure (found.update file)
        else if ret = 2 then pure (found.clean file)
        else pure found
    | _ => pure found) found file

def scanName (recur : Text → Found → Py Found) (jail : Text) (skips : List Text)
    (dir file : Text) (found : Found) : Py Found :=
  if dir ++ file ∈ skips ∨ jail ++ dir ++ file ∈ skips then pure found
  else checkFile recur jail (dir ++ file) found

def scanNames (recur : Text → Found → Py Found) (jail : Text) (skips : List Text) (dir : Text) :
    List Text → Found → Py Found
  | [], found => pure found
  | file :: files, found => do
      let found ← scanName recur jail skips dir file found
      scanNames recur jail skips dir files found

def find2update (jail : Text) (skips : List Text) : Nat → Text → Found → Py Found
  | 0, _, _ => raise .recursionError
  | n + 1, dir, found => do
      let files ← listdir (jail ++ dir)
      scanNames (find2update jail skips n) jail skips dir files found

/-- A directory that cannot be listed is left out with all that was found before. -/
def scanDir (fuel : Nat) (jail : Text) (skips : List Text) (dir : Text) : Py Found := do
  match ← attempt (find2update jail skips fuel dir ⟨[], []⟩) with
  | .ok found => pure found
  | .error (.osError _) => pure ⟨[], []⟩
  | .error .osErrorText => raise .valueError
  | .error e => raise e

/-- `try: os.unlink(path)`, `except:`, unless the run is dry. -/
def removeFile (dryRun : Bool) (path : Text) : Py Bool :=
  if dryRun then pure true
  else do
    match ← attempt (unlink path) with
    | .ok _ => pure true
    | .error _ => pure false

/-- The files that are gone; in a dry run those that would be removed. -/
def removeFiles (dryRun : Bool) (jail : Text) : List Text → Py (List Text)
  | [] => pure []
  | file :: files => do
      let gone ← removeFile dryRun (jail ++ file)
      let rest ← removeFiles dryRun jail files
      pure (if gone then file :: rest else rest)

def withSlash (dir : Text) : Text := if dir.getLast? = some '/' then dir else dir ++ ['/']

/-- The directory without the jail in front, and with a slash at its end. -/
def scanned (jail dir : Text) : Text :=
  withSlash (if dir.take jail.length = jail then dir.drop jail.length else dir)

/-- One round of `updatejail`. -/
def updateDir (fuel : Nat) (dryRun : Bool) (jail : Text) (skips : List Text) (dir : Text) :
    Py (List Text × List Text) :=
  if dir.dropLast ∈ skips ∨ jail ++ dir.dropLast ∈ skips then pure ([], [])
  else do
    let found ← scanDir fuel jail skips dir
    let files ← removeFiles dryRun jail found.files2update
    let cleans ← removeFiles dryRun jail found.files2clean
    pure (files, cleans)

/-- The loop of `updatejail` over the directories; the result is `allfiles`. -/
def removeOld (fuel : Nat) (dryRun : Bool) (jail : Text) (skips : List Text) :
    List Text → Py (List Text)
  | [] => pure []
  | dir :: dirs => do
      let (files, _) ← updateDir fuel dryRun jail skips (scanned jail dir)
      let allfiles ← removeOld fuel dryRun jail skips dirs
      pure (files ++ allfiles)

def updateOptions (hardlink : Bool) : CopyOptions where
  force_overwrite := false
  check_libs := true
  try_hardlink := hardlink
  allow_suid := false
  retain_owner := false

/-- `updatejail`, up to the call of `ldconfig`. -/
def updatejail (fuel : Nat) (dryRun hardlink : Bool) (jail : Text) (skips dirs : List Text) :
    Py Unit := do
  let allfiles ← removeOld fuel dryRun jail skips dirs
  if dryRun then pure ()
  else do
    let _ ← copyBinariesAndLibs fuel jail allfiles (updateOptions hardlink) false 0
    pure ()

end Jailkit.Update
