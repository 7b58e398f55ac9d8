import Jailkit.JkLib.Paths
import Jailkit.JkLib.SafePath
import Jailkit.Lib.Raising

/-!
What the Python tools ask of the operating system and of Python's own mutable objects,
and what each call may answer. A call that acts can always fail, without a trace unless
it says otherwise; a failure says `ENOENT` only where nothing is found.
-/
namespace Jailkit.Tools

inductive Format where
  | lnk
  | dir
  | reg
  | chr
  | blk
  | other
  deriving DecidableEq, Repr

structure StatBuf where
  format : Format
  attrs : Attrs
  rdev : Nat
  deriving DecidableEq, Repr

/-- A result of `lstat` with `ST_SIZE`, which only jk_update looks at. -/
structure SizedStat where
  buf : StatBuf
  size : Nat
  deriving DecidableEq, Repr

/-- `osErrorText` is an `OSError` with a text for its only argument: it has no two
arguments to take apart. -/
inductive Exn where
  | osError (errno : Nat)
  | osErrorText
  | outsideJail
  | valueError
  | nameError
  | typeError
  | indexError
  | unboundLocal
  | memoryError
  | recursionError
  deriving DecidableEq, Repr

def ENOENT : Nat := 2

/-- Where in the source a path is looked at: `copy_binaries_and_libs` and
`copy_dir_recursive` with a source path or with the path of the copy, `create_parent_path`
with a source directory, `resolve_realpath` with each directory on the way. -/
inductive Use where
  | source
  | dest
  | parent
  | walk (include_file : Bool)
  deriving DecidableEq, Repr

inductive Call where
  | cacheGet (use : Use) (path : Text)
  | cacheSet (path : Text) (buf : StatBuf)
  | listContains (ref : Nat) (x : Text)
  | listAppend (ref : Nat) (x : Text)
  | lstat (use : Use) (path : Text)
  | lstatSize (path : Text)
  | stat (path : Text)
  | exists (path : Text)
  | islink (path : Text)
  | readlink (use : Use) (path : Text)
  | openRead (path : Text)
  | listdir (path : Text)
  | scandir (path : Text)
  | mkdir (path : Text) (mode : Nat)
  | symlink (target path : Text)
  | link (src dst : Text)
  | copyfile (src dst : Text)
  | writeFile (path : Text) (kept : Bool) (text : Text)
  | utime (path : Text) (atime mtime : Nat)
  | chown (path : Text) (uid gid : Nat)
  | chmod (path : Text) (mode : Nat)
  | unlink (path : Text)
  | mknod (path : Text) (kind : FileKind) (major minor : Nat)
  | rmtree (path : Text)
  | glob (pattern : Text)
  | lddlistLibraries (file : Text)
  deriving DecidableEq, Repr

abbrev Res : Call → Type
  | .cacheGet _ _ => Option StatBuf
  | .cacheSet _ _ | .listAppend _ _ | .mknod _ _ _ _ => Unit
  | .listContains _ _ | .exists _ | .islink _ => Bool
  | .lstat _ _ | .stat _ => Except Exn StatBuf
  | .lstatSize _ => Except Exn SizedStat
  | .readlink _ _ | .openRead _ => Except Exn Text
  | .listdir _ => Except Exn (List Text)
  | .scandir _ => Except Exn (List (Text × Bool))
  | .mkdir _ _ | .symlink _ _ | .link _ _ | .copyfile _ _ | .writeFile _ _ _ | .utime _ _ _
  | .chown _ _ _ | .chmod _ _ | .unlink _ | .rmtree _ => Except Exn Unit
  | .glob _ | .lddlistLibraries _ => List Text

abbrev Py := Raising Call Res Exn

def perform (c : Call) : Prog Call Res (Res c) := Prog.perform c

/-- The file system, the dictionary `statcache` and the list objects by their number. -/
structure World where
  fs : Fs
  statcache : Text → Option StatBuf
  lists : Nat → List Text

def Format.ofKind : FileKind → Format
  | .reg => .reg
  | .chr => .chr
  | .blk => .blk
  | .other => .other

/-- The mode of a symlink is not used. -/
def linkAttrs : Attrs := ⟨0o777, 0, 0, 0, 0⟩

def statOf (fs : Fs) (loc : Loc) : Option StatBuf :=
  match fs.entry loc with
  | none => none
  | some .dir => some ⟨.dir, fs.dirAttrs loc, 0⟩
  | some (.file ino) =>
      some ⟨.ofKind (fs.inode ino).kind, (fs.inode ino).attrs, (fs.inode ino).rdev⟩
  | some (.symlink _) => some ⟨.lnk, linkAttrs, 0⟩

def statPath (fs : Fs) (follow : Bool) (path : Text) : Option StatBuf :=
  (fs.locate follow path).bind (statOf fs)

def lessBits (mode mask : Nat) : Nat := mode &&& (0o7777 ^^^ mask)

/-- A new directory takes over the setgid bit of the one it is in. -/
def newDirMode (fs : Fs) (umask : Nat) (path : Text) (mode : Nat) : Nat :=
  match fs.placeDir path with
  | none => lessBits mode umask
  | some loc => lessBits mode umask ||| ((fs.dirAttrs loc.dropLast).mode &&& S_ISGID)

/-- An error with a number and a text. -/
def IsOsError (e : Exn) : Prop := ∃ errno, e = .osError errno

/-- The call has done what it should, or it has failed without a trace. -/
def Acts (s s' : World) (does : Fs → Prop) : Except Exn Unit → Prop
  | .ok _ => ∃ fs', does fs' ∧ s' = { s with fs := fs' }
  | .error e => IsOsError e ∧ s' = s

def Finds (found : Option StatBuf) : Except Exn StatBuf → Prop
  | .ok buf => found = some buf
  | .error e => ∃ errno, e = .osError errno ∧ (errno = ENOENT → found = none)

/-- The times and the owner of a symlink are not kept in the file system. -/
def FindsSized (fs : Fs) (path : Text) : Except Exn SizedStat → Prop
  | .ok st => ∃ buf, statPath fs false path = some buf ∧ st.buf.format = buf.format ∧
      (buf.format ≠ .lnk → st.buf = buf) ∧
      ∀ ino, fs.lookup false path = some (.file ino) → (fs.inode ino).kind = .reg →
        st.size = (fs.inode ino).content.length
  | .error e => ∃ errno, e = .osError errno ∧
      (errno = ENOENT → statPath fs false path = none)

/-- `open` for reading, with what the reads then give. -/
def Opens (fs : Fs) (path : Text) : Except Exn Text → Prop
  | .ok content => ∃ ino, fs.lookup true path = some (.file ino) ∧
      ((fs.inode ino).kind = .reg → content = (fs.inode ino).content)
  | .error e => IsOsError e

def Reads (fs : Fs) (path : Text) : Except Exn Text → Prop
  | .ok target => fs.lookup false path = some (.symlink target)
  | .error e => IsOsError e

def ListsDir (fs : Fs) (path : Text) : Except Exn (List Text) → Prop
  | .ok names => ∃ loc, fs.locate true path = some loc ∧ fs.entry loc = some .dir ∧
      fs.Lists loc names
  | .error e => IsOsError e

/-- Each name with whether it is a directory, for which a symlink is followed. -/
def ScansDir (fs : Fs) (path : Text) : Except Exn (List (Text × Bool)) → Prop
  | .ok entries => ∃ loc, fs.locate true path = some loc ∧ fs.entry loc = some .dir ∧
      fs.Lists loc (entries.map Prod.fst) ∧
      ∀ name isDir, (name, isDir) ∈ entries →
        (fs.entry (loc ++ [name]) = some .dir → isDir = true) ∧
        (isDir = true → fs.entry (loc ++ [name]) = some .dir ∨
          (∃ t, fs.entry (loc ++ [name]) = some (.symlink t)) ∧
            fs.lookup true (path ++ '/' :: name) = some .dir)
  | .error e => IsOsError e

def newFileAttrs (umask : Nat) (a : Attrs) : Prop := a.mode = lessBits 0o666 umask

/-- `copyfile` reads a regular file, opens the other one for writing and may fail with
part of the content written. -/
def Copies (umask : Nat) (s s' : World) (src dst : Text) : Except Exn Unit → Prop
  | .ok _ => ∃ loc ino a fs', s.fs.locate true src = some loc ∧
      s.fs.entry loc = some (.file ino) ∧ (s.fs.inode ino).kind = .reg ∧
      newFileAttrs umask a ∧ s.fs.openWrite dst a (s.fs.inode ino).content = some fs' ∧
      s' = { s with fs := fs' }
  | .error e => (IsOsError e ∨ e = .osErrorText) ∧
      (s' = s ∨ ∃ a content fs', newFileAttrs umask a ∧
        s.fs.openWrite dst a content = some fs' ∧ s' = { s with fs := fs' })

/-- `open` for writing, with what is then written at the end of the file that is kept or
emptied; where it fails, the file may have any part of that. -/
def Writes (umask : Nat) (s s' : World) (path : Text) (kept : Bool) (text : Text) :
    Except Exn Unit → Prop
  | .ok _ => ∃ a fs', newFileAttrs umask a ∧
      s.fs.openWrite path a ((if kept then s.fs.contentAt path else []) ++ text) = some fs' ∧
      s' = { s with fs := fs' }
  | .error e => IsOsError e ∧ (s' = s ∨ ∃ a content fs', newFileAttrs umask a ∧
      s.fs.openWrite path a content = some fs' ∧ s' = { s with fs := fs' })

/-- `chown` may take the setuid and setgid bits of a file away. -/
def Chowns (fs fs' : Fs) (path : Text) (uid gid : Nat) : Prop :=
  ∃ keep : Bool, fs.setAttrs path (fun a =>
    { a with uid := uid, gid := gid,
             mode := if keep then a.mode else lessBits a.mode (S_ISUID ||| S_ISGID) }) = some fs'

/-- `rmtree` refuses a symlink; a directory goes with all that is below it, or, where it
fails, with some of it. -/
def Removes (s s' : World) (path : Text) : Except Exn Unit → Prop
  | .ok _ => ∃ loc, s.fs.locate false path = some loc ∧ s.fs.entry loc = some .dir ∧
      s' = { s with fs := s.fs.removeIf (fun x => loc.isPrefixOf x) }
  | .error .osErrorText => s' = s ∧ ∃ t, s.fs.lookup false path = some (.symlink t)
  | .error e => IsOsError e ∧ (s' = s ∨ ∃ loc p, s.fs.locate false path = some loc ∧
      s.fs.entry loc = some .dir ∧ (∀ x, p x = true → loc <+: x) ∧
      s' = { s with fs := s.fs.removeIf p })

/-- What each call may answer, and the world after it. -/
def posix (umask : Nat) (s : World) : (c : Call) → Res c → World → Prop
  | .cacheGet _ path, r, s' => r = s.statcache path ∧ s' = s
  | .cacheSet path buf, _, s' =>
      s' = { s with statcache := fun x => if x = path then some buf else s.statcache x }
  | .listContains ref x, r, s' => r = (s.lists ref).contains x ∧ s' = s
  | .listAppend ref x, _, s' =>
      s' = { s with lists := fun i => if i = ref then s.lists i ++ [x] else s.lists i }
  | .lstat _ path, r, s' => Finds (statPath s.fs false path) r ∧ s' = s
  | .lstatSize path, r, s' => FindsSized s.fs path r ∧ s' = s
  | .stat path, r, s' => Finds (statPath s.fs true path) r ∧ s' = s
  | .exists path, r, s' => (r = true → (s.fs.lookup true path).isSome) ∧ s' = s
  | .islink path, r, s' =>
      (r = true → ∃ t, s.fs.lookup false path = some (.symlink t)) ∧ s' = s
  | .readlink _ path, r, s' => Reads s.fs path r ∧ s' = s
  | .openRead path, r, s' => Opens s.fs path r ∧ s' = s
  | .listdir path, r, s' => ListsDir s.fs path r ∧ s' = s
  | .scandir path, r, s' => ScansDir s.fs path r ∧ s' = s
  | .mkdir path mode, r, s' =>
      Acts s s' (fun fs' => ∃ a, a.mode = newDirMode s.fs umask path mode ∧
        s.fs.mkdir path a = some fs') r
  | .symlink target path, r, s' => Acts s s' (fun fs' => s.fs.symlink target path = some fs') r
  | .link src dst, r, s' => Acts s s' (fun fs' => s.fs.link src dst = some fs') r
  | .copyfile src dst, r, s' => Copies umask s s' src dst r
  | .writeFile path kept text, r, s' => Writes umask s s' path kept text r
  | .utime path atime mtime, r, s' =>
      Acts s s' (fun fs' => s.fs.setAttrs path (fun a =>
        { a with atime := atime, mtime := mtime }) = some fs') r
  | .chown path uid gid, r, s' => Acts s s' (fun fs' => Chowns s.fs fs' path uid gid) r
  | .chmod path mode, r, s' =>
      Acts s s' (fun fs' => s.fs.setAttrs path (fun a => { a with mode := mode }) = some fs') r
  | .unlink path, r, s' => Acts s s' (fun fs' => s.fs.unlink path = some fs') r
  | .mknod path kind major minor, _, s' => s' = s ∨ ∃ a fs', newFileAttrs umask a ∧
      s.fs.mknod path kind a (major * 256 + minor) = some fs' ∧ s' = { s with fs := fs' }
  | .rmtree path, r, s' => Removes s s' path r
  | .glob _, _, s' | .lddlistLibraries _, _, s' => s' = s

/-- The runs in which every answer is one of these. -/
def posixWhere (umask : Nat) (Ok : World → (c : Call) → Res c → Prop) :
    Prog.Machine Call Res World :=
  fun s c r s' => posix umask s c r s' ∧ Ok s c r

/-- What a call can make of the file system. -/
def Does (umask : Nat) (fs fs' : Fs) : Call → Prop
  | .mkdir path mode => ∃ a, a.mode = newDirMode fs umask path mode ∧ fs.mkdir path a = some fs'
  | .symlink target path => fs.symlink target path = some fs'
  | .link src dst => fs.link src dst = some fs'
  | .copyfile _ path | .writeFile path _ _ =>
      ∃ a content, newFileAttrs umask a ∧ fs.openWrite path a content = some fs'
  | .utime path atime mtime =>
      fs.setAttrs path (fun a => { a with atime := atime, mtime := mtime }) = some fs'
  | .chown path uid gid => Chowns fs fs' path uid gid
  | .chmod path mode => fs.setAttrs path (fun a => { a with mode := mode }) = some fs'
  | .unlink path => fs.unlink path = some fs'
  | .mknod path kind major minor =>
      ∃ a, newFileAttrs umask a ∧ fs.mknod path kind a (major * 256 + minor) = some fs'
  | .rmtree path => ∃ loc p, fs.locate false path = some loc ∧ fs.entry loc = some .dir ∧
      (∀ x, p x = true → loc <+: x) ∧ fs' = fs.removeIf p
  | _ => False

theorem acts_does {s s' : World} {does : Fs → Prop} {r : Except Exn Unit}
    (h : Acts s s' does r) : s'.fs = s.fs ∨ does s'.fs := by
  cases r with
  | ok u =>
      obtain ⟨fs', hdoes, heq⟩ := h
      rw [heq]
      exact Or.inr hdoes
  | error e =>
      rw [h.2]
      exact Or.inl rfl

/-- A file has been opened for writing if anything has happened. -/
theorem opened_of_part {umask : Nat} {s s' : World} {path : Text}
    (h : s' = s ∨ ∃ a content fs', newFileAttrs umask a ∧
      s.fs.openWrite path a content = some fs' ∧ s' = { s with fs := fs' }) :
    s'.fs = s.fs ∨
      ∃ a content, newFileAttrs umask a ∧ s.fs.openWrite path a content = some s'.fs := by
  cases h with
  | inl heq =>
      rw [heq]
      exact Or.inl rfl
  | inr hpart =>
      obtain ⟨a, content, fs', ha, hopen, heq⟩ := hpart
      rw [heq]
      exact Or.inr ⟨a, content, ha, hopen⟩

theorem copies_does {umask : Nat} {s s' : World} {src dst : Text} {r : Except Exn Unit}
    (h : Copies umask s s' src dst r) :
    s'.fs = s.fs ∨ Does umask s.fs s'.fs (.copyfile src dst) := by
  cases r with
  | ok u =>
      obtain ⟨_, _, a, fs', _, _, _, ha, hopen, heq⟩ := h
      rw [heq]
      exact Or.inr ⟨a, _, ha, hopen⟩
  | error e => exact opened_of_part h.2

theorem writes_does {umask : Nat} {s s' : World} {path text : Text} {kept : Bool}
    {r : Except Exn Unit} (h : Writes umask s s' path kept text r) :
    s'.fs = s.fs ∨ Does umask s.fs s'.fs (.writeFile path kept text) := by
  cases r with
  | ok u =>
      obtain ⟨a, fs', ha, hopen, heq⟩ := h
      rw [heq]
      exact Or.inr ⟨a, _, ha, hopen⟩
  | error e => exact opened_of_part h.2

/-- A failed `rmtree` has removed part of the directory. -/
theorem removes_does {umask : Nat} {s s' : World} {path : Text} {r : Except Exn Unit}
    (h : Removes s s' path r) : s'.fs = s.fs ∨ Does umask s.fs s'.fs (.rmtree path) := by
  have hpart : (s' = s ∨ ∃ loc p, s.fs.locate false path = some loc ∧
      s.fs.entry loc = some .dir ∧ (∀ x, p x = true → loc <+: x) ∧
      s' = { s with fs := s.fs.removeIf p }) →
      s'.fs = s.fs ∨ Does umask s.fs s'.fs (.rmtree path) := by
    intro hpart
    cases hpart with
    | inl heq =>
        rw [heq]
        exact Or.inl rfl
    | inr hpart =>
        obtain ⟨loc, p, hloc, hdir, hp, heq⟩ := hpart
        rw [heq]
        exact Or.inr ⟨loc, p, hloc, hdir, hp, rfl⟩
  cases r with
  | ok u =>
      obtain ⟨loc, hloc, hdir, heq⟩ := h
      exact hpart (Or.inr
        ⟨loc, _, hloc, hdir, fun x hx => List.isPrefixOf_iff_prefix.mp hx, heq⟩)
  | error e =>
      cases e with
      | osErrorText => exact hpart (Or.inl h.1)
      | osError _ | outsideJail | valueError | nameError | typeError | indexError
      | unboundLocal | memoryError | recursionError => exact hpart h.2

/-- All that a call does to the file system: nothing, or what it is made for. -/
theorem posix_does {umask : Nat} {s s' : World} {c : Call} {r : Res c}
    (h : posix umask s c r s') : s'.fs = s.fs ∨ Does umask s.fs s'.fs c := by
  cases c with
  | cacheGet _ _ | listContains _ _ | lstat _ _ | lstatSize _ | stat _ | «exists» _ | islink _
  | readlink _ _ | openRead _ | listdir _ | scandir _ => exact Or.inl (by rw [h.2])
  | cacheSet _ _ | listAppend _ _ | glob _ | lddlistLibraries _ => exact Or.inl (by rw [h])
  | mkdir _ _ | symlink _ _ | link _ _ | utime _ _ _ | chown _ _ _ | chmod _ _ | unlink _ =>
      exact acts_does h
  | copyfile src dst => exact copies_does h
  | writeFile path kept text => exact writes_does h
  | rmtree path => exact removes_does h
  | mknod path kind major minor =>
      cases h with
      | inl heq =>
          rw [heq]
          exact Or.inl rfl
      | inr hmade =>
          obtain ⟨a, fs', ha, hmk, heq⟩ := hmade
          rw [heq]
          exact Or.inr ⟨a, ha, hmk⟩

def cacheGet (use : Use) (path : Text) : Py (Option StatBuf) :=
  Raising.lift (perform (.cacheGet use path))

def cacheSet (path : Text) (buf : StatBuf) : Py Unit :=
  Raising.lift (perform (.cacheSet path buf))

def listContains (ref : Nat) (x : Text) : Py Bool :=
  Raising.lift (perform (.listContains ref x))

def listAppend (ref : Nat) (x : Text) : Py Unit := Raising.lift (perform (.listAppend ref x))

def lstat (use : Use) (path : Text) : Py StatBuf := perform (.lstat use path)

def lstatSize (path : Text) : Py SizedStat := perform (.lstatSize path)

def stat (path : Text) : Py StatBuf := perform (.stat path)

def exists_ (path : Text) : Py Bool := Raising.lift (perform (.exists path))

def islink (path : Text) : Py Bool := Raising.lift (perform (.islink path))

def readlink (use : Use) (path : Text) : Py Text := perform (.readlink use path)

def openRead (path : Text) : Py Text := perform (.openRead path)

def listdir (path : Text) : Py (List Text) := perform (.listdir path)

def scandir (path : Text) : Py (List (Text × Bool)) := perform (.scandir path)

def mkdir (path : Text) (mode : Nat) : Py Unit := perform (.mkdir path mode)

def symlink (target path : Text) : Py Unit := perform (.symlink target path)

def link (src dst : Text) : Py Unit := perform (.link src dst)

def copyfile (src dst : Text) : Py Unit := perform (.copyfile src dst)

def writeFile (path : Text) (kept : Bool) (text : Text) : Py Unit :=
  perform (.writeFile path kept text)

def utime (path : Text) (atime mtime : Nat) : Py Unit := perform (.utime path atime mtime)

def chown (path : Text) (uid gid : Nat) : Py Unit := perform (.chown path uid gid)

def chmod (path : Text) (mode : Nat) : Py Unit := perform (.chmod path mode)

def unlink (path : Text) : Py Unit := perform (.unlink path)

def mknod (path : Text) (kind : FileKind) (major minor : Nat) : Py Unit :=
  Raising.lift (perform (.mknod path kind major minor))

def rmtree (path : Text) : Py Unit := perform (.rmtree path)

def glob (pattern : Text) : Py (List Text) := Raising.lift (perform (.glob pattern))

def lddlistLibraries (file : Text) : Py (List Text) :=
  Raising.lift (perform (.lddlistLibraries file))

end Jailkit.Tools
