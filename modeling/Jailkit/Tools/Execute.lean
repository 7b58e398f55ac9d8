import Jailkit.Tools.Calls

/-!
One answer for each call, computed: every call succeeds that can.
-/
namespace Jailkit.Tools

def rootAttrs (mode : Nat) : Attrs := ⟨mode, 0, 0, 0, 0⟩

theorem newFileAttrs_root (umask : Nat) : newFileAttrs umask (rootAttrs (lessBits 0o666 umask)) :=
  rfl

def acted (s : World) (errno : Nat) : Option Fs → Except Exn Unit × World
  | some fs => (.ok (), { s with fs := fs })
  | none => (.error (.osError errno), s)

def found : Option StatBuf → Except Exn StatBuf
  | some buf => .ok buf
  | none => .error (.osError ENOENT)

def readLink (fs : Fs) (path : Text) : Except Exn Text :=
  match fs.lookup false path with
  | some (.symlink target) => .ok target
  | _ => .error (.osError 22)

def isSymlink : Option Entry → Bool
  | some (.symlink _) => true
  | _ => false

def sizeOf (fs : Fs) (path : Text) : Nat :=
  match fs.lookup false path with
  | some (.file ino) => (fs.inode ino).content.length
  | _ => 0

def foundSized (fs : Fs) (path : Text) : Except Exn SizedStat :=
  match statPath fs false path with
  | some buf => .ok ⟨buf, sizeOf fs path⟩
  | none => .error (.osError ENOENT)

def opened (fs : Fs) (path : Text) : Except Exn Text :=
  match fs.lookup true path with
  | some (.file ino) => .ok (fs.inode ino).content
  | _ => .error (.osError ENOENT)

def listNames (fs : Fs) (path : Text) : Except Exn (List Text) :=
  match fs.locate true path with
  | some loc => if fs.entry loc = some .dir then .ok (fs.names loc) else .error (.osError 20)
  | none => .error (.osError ENOENT)

def scanEntry (fs : Fs) (path : Text) (loc : Loc) (name : Text) : Text × Bool :=
  (name, match fs.entry (loc ++ [name]) with
    | some .dir => true
    | some (.symlink _) => fs.lookup true (path ++ '/' :: name) = some .dir
    | _ => false)

def scanEntries (fs : Fs) (path : Text) : Except Exn (List (Text × Bool)) :=
  match fs.locate true path with
  | some loc =>
      if fs.entry loc = some .dir then .ok ((fs.names loc).map (scanEntry fs path loc))
      else .error (.osError 20)
  | none => .error (.osError ENOENT)

def copied (fs : Fs) (umask : Nat) (src dst : Text) : Option Fs :=
  match (fs.locate true src).bind fs.entry with
  | some (.file ino) =>
      if (fs.inode ino).kind = .reg then
        fs.openWrite dst (rootAttrs (lessBits 0o666 umask)) (fs.inode ino).content
      else none
  | _ => none

def written (fs : Fs) (umask : Nat) (path : Text) (kept : Bool) (text : Text) : Option Fs :=
  fs.openWrite path (rootAttrs (lessBits 0o666 umask))
    ((if kept then fs.contentAt path else []) ++ text)

def removed (s : World) (path : Text) : Except Exn Unit × World :=
  match s.fs.locate false path with
  | some loc =>
      match s.fs.entry loc with
      | some .dir => (.ok (), { s with fs := s.fs.removeIf fun x => loc.isPrefixOf x })
      | some (.symlink _) => (.error .osErrorText, s)
      | _ => (.error (.osError 20), s)
  | none => (.error (.osError ENOENT), s)

def execute (umask : Nat) (s : World) : (c : Call) → Res c × World
  | .cacheGet _ path => (s.statcache path, s)
  | .cacheSet path buf =>
      ((), { s with statcache := fun x => if x = path then some buf else s.statcache x })
  | .listContains ref x => ((s.lists ref).contains x, s)
  | .listAppend ref x =>
      ((), { s with lists := fun i => if i = ref then s.lists i ++ [x] else s.lists i })
  | .lstat _ path => (found (statPath s.fs false path), s)
  | .lstatSize path => (foundSized s.fs path, s)
  | .stat path => (found (statPath s.fs true path), s)
  | .exists path => ((s.fs.lookup true path).isSome, s)
  | .islink path => (isSymlink (s.fs.lookup false path), s)
  | .readlink _ path => (readLink s.fs path, s)
  | .openRead path => (opened s.fs path, s)
  | .listdir path => (listNames s.fs path, s)
  | .scandir path => (scanEntries s.fs path, s)
  | .mkdir path mode =>
      acted s 17 (s.fs.mkdir path (rootAttrs (newDirMode s.fs umask path mode)))
  | .symlink target path => acted s 17 (s.fs.symlink target path)
  | .link src dst => acted s 17 (s.fs.link src dst)
  | .copyfile src dst => acted s ENOENT (copied s.fs umask src dst)
  | .writeFile path kept text => acted s ENOENT (written s.fs umask path kept text)
  | .utime path atime mtime =>
      acted s ENOENT (s.fs.setAttrs path fun a => { a with atime := atime, mtime := mtime })
  | .chown path uid gid =>
      acted s ENOENT (s.fs.setAttrs path fun a => { a with uid := uid, gid := gid })
  | .chmod path mode => acted s ENOENT (s.fs.setAttrs path fun a => { a with mode := mode })
  | .unlink path => acted s ENOENT (s.fs.unlink path)
  | .mknod path kind major minor =>
      ((), match s.fs.mknod path kind (rootAttrs (lessBits 0o666 umask)) (major * 256 + minor) with
        | some fs => { s with fs := fs }
        | none => s)
  | .rmtree path => removed s path
  | .glob _ | .lddlistLibraries _ => ([], s)

theorem acts_acted {s : World} {does : Fs → Prop} (errno : Nat) {result : Option Fs}
    (h : ∀ fs, result = some fs → does fs) :
    Acts s (acted s errno result).2 does (acted s errno result).1 := by
  cases result with
  | some fs => exact ⟨fs, h fs rfl, rfl⟩
  | none => exact ⟨⟨errno, rfl⟩, rfl⟩

theorem finds_found (buf : Option StatBuf) : Finds buf (found buf) := by
  cases buf with
  | some buf => rfl
  | none => exact ⟨ENOENT, rfl, fun _ => rfl⟩

theorem reads_readLink (fs : Fs) (path : Text) : Reads fs path (readLink fs path) := by
  unfold readLink
  split
  next target h => exact h
  next => exact ⟨22, rfl⟩

theorem findsSized_foundSized (fs : Fs) (path : Text) :
    FindsSized fs path (foundSized fs path) := by
  rw [foundSized]
  cases h : statPath fs false path with
  | none => exact ⟨ENOENT, rfl, fun _ => h⟩
  | some buf =>
      refine ⟨buf, h, rfl, fun _ => rfl, fun ino hino _ => ?_⟩
      rw [sizeOf, hino]

theorem opens_opened (fs : Fs) (path : Text) : Opens fs path (opened fs path) := by
  rw [opened]
  split
  next ino h => exact ⟨ino, h, fun _ => rfl⟩
  next => exact ⟨ENOENT, rfl⟩

theorem listsDir_listNames (fs : Fs) (path : Text) :
    ListsDir fs path (listNames fs path) := by
  unfold listNames
  split
  next loc hloc =>
    split
    next hdir => exact ⟨loc, hloc, hdir, fs.lists_names loc⟩
    next => exact ⟨20, rfl⟩
  next => exact ⟨ENOENT, rfl⟩

theorem scansDir_scanEntries (fs : Fs) (path : Text) :
    ScansDir fs path (scanEntries fs path) := by
  unfold scanEntries
  split
  next loc hloc =>
    split
    next hdir =>
      have hnames : ((fs.names loc).map (scanEntry fs path loc)).map Prod.fst = fs.names loc := by
        rw [List.map_map]
        exact List.map_id _
      refine ⟨loc, hloc, hdir, ?_, ?_⟩
      · rw [hnames]
        exact fs.lists_names loc
      · intro name isDir hmem
        obtain ⟨n, -, hn⟩ := List.mem_map.mp hmem
        cases hn
        refine ⟨fun h => by simp only [h], fun h => ?_⟩
        cases he : fs.entry (loc ++ [name]) with
        | none => simp [he] at h
        | some e =>
            cases e with
            | dir => exact Or.inl rfl
            | file ino => simp [he] at h
            | symlink t =>
                simp only [he, decide_eq_true_eq] at h
                exact Or.inr ⟨⟨t, rfl⟩, h⟩
    next => exact ⟨20, rfl⟩
  next => exact ⟨ENOENT, rfl⟩

theorem copies_copied (umask : Nat) (s : World) (src dst : Text) :
    Copies umask s (acted s ENOENT (copied s.fs umask src dst)).2 src dst
      (acted s ENOENT (copied s.fs umask src dst)).1 := by
  cases hc : copied s.fs umask src dst with
  | none => exact ⟨Or.inl ⟨ENOENT, rfl⟩, Or.inl rfl⟩
  | some fs =>
      unfold copied at hc
      split at hc
      next ino hentry =>
        obtain ⟨loc, hloc, he⟩ := Option.bind_eq_some_iff.mp hentry
        split at hc
        next hreg => exact ⟨loc, ino, _, fs, hloc, he, hreg, newFileAttrs_root umask, hc, rfl⟩
        next => cases hc
      next => cases hc

theorem writes_written (umask : Nat) (s : World) (path : Text) (kept : Bool) (text : Text) :
    Writes umask s (acted s ENOENT (written s.fs umask path kept text)).2 path kept text
      (acted s ENOENT (written s.fs umask path kept text)).1 := by
  cases hw : written s.fs umask path kept text with
  | none => exact ⟨⟨ENOENT, rfl⟩, Or.inl rfl⟩
  | some fs => exact ⟨_, fs, newFileAttrs_root umask, hw, rfl⟩

theorem removes_removed (s : World) (path : Text) :
    Removes s (removed s path).2 path (removed s path).1 := by
  unfold removed
  split
  next loc hloc =>
    split
    next hdir => exact ⟨loc, hloc, hdir, rfl⟩
    next t hlink =>
      refine ⟨rfl, t, ?_⟩
      rw [Fs.lookup, hloc]
      exact hlink
    next => exact ⟨⟨20, rfl⟩, Or.inl rfl⟩
  next => exact ⟨⟨ENOENT, rfl⟩, Or.inl rfl⟩

theorem posix_execute (umask : Nat) (s : World) (c : Call) :
    posix umask s c (execute umask s c).1 (execute umask s c).2 := by
  cases c with
  | cacheGet _ _ | listContains _ _ => exact ⟨rfl, rfl⟩
  | cacheSet _ _ | listAppend _ _ | glob _ | lddlistLibraries _ => rfl
  | lstat _ _ | stat _ => exact ⟨finds_found _, rfl⟩
  | «exists» _ => exact ⟨id, rfl⟩
  | islink path =>
      refine ⟨fun h => ?_, rfl⟩
      cases he : s.fs.lookup false path with
      | none => simp [execute, isSymlink, he] at h
      | some e =>
          cases e with
          | symlink t => exact ⟨t, rfl⟩
          | dir | file ino => simp [execute, isSymlink, he] at h
  | lstatSize path => exact ⟨findsSized_foundSized s.fs path, rfl⟩
  | readlink use path => exact ⟨reads_readLink s.fs path, rfl⟩
  | openRead path => exact ⟨opens_opened s.fs path, rfl⟩
  | listdir path => exact ⟨listsDir_listNames s.fs path, rfl⟩
  | scandir path => exact ⟨scansDir_scanEntries s.fs path, rfl⟩
  | mkdir path mode => exact acts_acted 17 fun fs h => ⟨_, rfl, h⟩
  | symlink _ _ | link _ _ => exact acts_acted 17 fun fs h => h
  | copyfile src dst => exact copies_copied umask s src dst
  | writeFile path kept text => exact writes_written umask s path kept text
  | utime _ _ _ | chmod _ _ | unlink _ => exact acts_acted ENOENT fun fs h => h
  | chown _ _ _ => exact acts_acted ENOENT fun fs h => ⟨true, h⟩
  | mknod path kind major minor =>
      cases h : s.fs.mknod path kind (rootAttrs (lessBits 0o666 umask)) (major * 256 + minor) with
      | none => exact Or.inl (by simp only [execute, h])
      | some fs =>
          exact Or.inr ⟨_, fs, newFileAttrs_root umask, h, by simp only [execute, h]⟩
  | rmtree path => exact removes_removed s path

theorem posix_of_execute (umask : Nat) (s : World) (c : Call) (r : Res c) (s' : World)
    (h : some (execute umask s c) = some (r, s')) : posix umask s c r s' := by
  have hposix := posix_execute umask s c
  rwa [Option.some.inj h] at hposix

def dirsAt (locs : List Loc) : List (Loc × Entry) := locs.map fun loc => (loc, .dir)

def worldOf (mode : Nat) (nodes : List (Loc × Entry)) : World where
  fs := ⟨nodes, fun _ => rootAttrs 0o755, fun _ => ⟨.reg, rootAttrs mode, [], 0⟩, 9, []⟩
  statcache := fun _ => none
  lists := fun _ => []

end Jailkit.Tools
