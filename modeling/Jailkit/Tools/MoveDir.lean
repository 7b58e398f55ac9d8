import Jailkit.Tools.Calls

/-!
`copy_dir_with_permissions_and_owner` and `move_dir_with_permissions_and_owner` of
jk_lib.py, which call each other. The fuel is Python's recursion limit.
-/
namespace Jailkit.Tools

open JkLib

/-- `except (IOError, OSError)` where the handler takes the arguments apart first. -/
def catchOs {α : Type} (p : Py α) (handler : Py α) : Py α := do
  match ← Raising.attempt p with
  | .ok a => pure a
  | .error (.osError _) => handler
  | .error .osErrorText => Raising.raise .valueError
  | .error e => Raising.raise e

theorem along_catchOs {α σ : Type} {M : Prog.Machine Call Res σ} {G : σ → Call → Prop}
    {R : σ → σ → Prop} [Std.Refl R] [IsTrans σ R] {p handler : Py α} {Q : α → σ → Prop} {s : σ}
    (hp : Raising.Along M G R p Q s)
    (hh : ∀ s', R s s' → Raising.Along M G R handler Q s') :
    Raising.Along M G R (catchOs p handler) Q s := by
  apply Raising.along_handle hp
  · exact fun a s' _ ha => Raising.along_pure a ha
  · intro e s' hR
    cases e with
    | osError errno => exact hh s' hR
    | osErrorText | outsideJail | valueError | nameError | typeError | indexError
    | unboundLocal | memoryError | recursionError => exact Raising.along_raise _

def chownIf (copy_ownership : Bool) (dst : Text) (a : Attrs) : Py Unit :=
  if copy_ownership then chown dst a.uid a.gid else pure ()

def copyTimeAndPermissions (src dst : Text) (allow_suid copy_ownership : Bool) : Py Unit := do
  let sbuf ← stat src
  let mode :=
    if allow_suid then sbuf.attrs.mode else lessBits sbuf.attrs.mode (S_ISUID ||| S_ISGID)
  utime dst sbuf.attrs.atime sbuf.attrs.mtime
  chownIf copy_ownership dst sbuf.attrs
  chmod dst mode

def copyFiles (root dstdir : Text) : List Text → Py Bool
  | [] => pure true
  | name :: files => do
      let ok ← catchOs (do
        copyfile (root ++ '/' :: name) (dstdir ++ '/' :: name)
        copyTimeAndPermissions (root ++ '/' :: name) (dstdir ++ '/' :: name) false true
        pure true) (pure false)
      if ok then copyFiles root dstdir files else pure false

def moveDirs (move : Text → Text → Py Unit) (root dstdir : Text) : List Text → Py Unit
  | [] => pure ()
  | name :: dirs => do
      move (root ++ '/' :: name) (dstdir ++ '/' :: name)
      moveDirs move root dstdir dirs

/-- What `os.walk` goes on with below one directory, when its names have been used. -/
def walkDirs (walk : Text → Py Bool) (root : Text) : List Text → Py Bool
  | [] => pure true
  | name :: dirs => do
      let below ←
        if ← islink (osPathJoin root name) then pure true else walk (osPathJoin root name)
      if below then walkDirs walk root dirs else pure false

def filesOf (entries : List (Text × Bool)) : List Text :=
  (entries.filter fun x => !x.2).map Prod.fst

def dirsOf (entries : List (Text × Bool)) : List Text :=
  (entries.filter fun x => x.2).map Prod.fst

/-- The loop over `os.walk` from one directory on; all of them are copied to `dstdir`.
A directory that cannot be read is passed over. -/
def walkFrom (move : Text → Text → Py Unit) (dstdir : Text) : Nat → Text → Py Bool
  | 0, _ => Raising.raise .recursionError
  | n + 1, root => do
      match ← Raising.attempt (scandir root) with
      | .error _ => pure true
      | .ok entries =>
          if ← copyFiles root dstdir (filesOf entries) then do
            moveDirs move root dstdir (dirsOf entries)
            walkDirs (walkFrom move dstdir n) root (dirsOf entries)
          else
            pure false

/-- `copy_dir_with_permissions_and_owner`, for the `move` it calls. -/
def copyDirWith (move : Text → Text → Py Unit) (fuel : Nat) (srcdir dstdir : Text) :
    Py Bool := do
  let made ← catchOs (do
    mkdir dstdir 0o777
    copyTimeAndPermissions srcdir dstdir false true
    pure true) (pure false)
  if made then walkFrom move dstdir fuel srcdir else pure false

def moveDir : Nat → Text → Text → Py Unit
  | 0, _, _ => Raising.raise .recursionError
  | n + 1, srcdir, dstdir => do
      if ← copyDirWith (moveDir n) n srcdir dstdir then
        catchOs (rmtree srcdir) (pure ())
      else
        pure ()

end Jailkit.Tools
