import Jailkit.Lib.Text
import Mathlib.Data.List.Dedup
import Mathlib.Data.List.DropRight
import Mathlib.Data.List.Induction

/-!
A file system as the kernel sees it: what stands at each location, and how a path is
resolved to one. A location is the list of names on the way from the root; it has no
symlinks in it, whatever the path had.
-/
namespace Jailkit

abbrev Loc := List Text

inductive Entry where
  | dir
  | file (ino : Nat)
  | symlink (target : Text)
  deriving DecidableEq, Repr

inductive FileKind where
  | reg
  | chr
  | blk
  | other
  deriving DecidableEq, Repr

/-- What `chmod`, `chown` and `utime` set; the mode has the permission bits only. -/
structure Attrs where
  mode : Nat
  uid : Nat
  gid : Nat
  atime : Nat
  mtime : Nat
  deriving DecidableEq, Repr

structure Inode where
  kind : FileKind
  attrs : Attrs
  content : Text
  rdev : Nat
  deriving DecidableEq, Repr

/-- Files are shared between their names, directories have one name each. -/
structure Fs where
  nodes : List (Loc × Entry)
  dirAttrs : Loc → Attrs
  inode : Nat → Inode
  nextIno : Nat
  cwd : Loc

namespace Fs

def entry (fs : Fs) (loc : Loc) : Option Entry :=
  if loc = [] then some .dir else fs.nodes.lookup loc

def components (path : Text) : List Text := path.splitOn '/'

def isAbsolute (path : Text) : Bool := path.head? = some '/'

def ValidName (n : Text) : Prop := n ≠ [] ∧ n ≠ ['.'] ∧ n ≠ ['.', '.'] ∧ '/' ∉ n

instance (n : Text) : Decidable (ValidName n) :=
  inferInstanceAs (Decidable (_ ∧ _ ∧ _ ∧ _))

/-- The names from `cur` on, with `next` for what comes behind a symlink. The last name
need not exist; a symlink there is followed only if `follow` says so. -/
def walkWith (fs : Fs) (follow : Bool) (next : Loc → List Text → Option Loc) :
    Loc → List Text → Option Loc
  | cur, [] => some cur
  | cur, c :: cs =>
      if fs.entry cur ≠ some .dir then none
      else if c = [] ∨ c = ['.'] then walkWith fs follow next cur cs
      else if c = ['.', '.'] then walkWith fs follow next cur.dropLast cs
      else
        match fs.entry (cur ++ [c]) with
        | none => if cs = [] then some (cur ++ [c]) else none
        | some (.symlink target) =>
            if cs = [] ∧ follow = false then some (cur ++ [c])
            else if target = [] then none
            else next (if isAbsolute target then [] else cur) (components target ++ cs)
        | some .dir => walkWith fs follow next (cur ++ [c]) cs
        | some (.file _) => walkWith fs follow next (cur ++ [c]) cs

/-- The walk with a bound on the symlinks followed. -/
def walk (fs : Fs) (follow : Bool) : Nat → Loc → List Text → Option Loc
  | 0 => walkWith fs follow fun _ _ => none
  | n + 1 => walkWith fs follow (walk fs follow n)

def maxSymlinks : Nat := 40

/-- The location that a path names, whether or not something stands there. -/
def locate (fs : Fs) (follow : Bool) (path : Text) : Option Loc :=
  if path = [] then none
  else fs.walk follow maxSymlinks (if isAbsolute path then [] else fs.cwd) (components path)

/-- The location of what exists at a path. -/
def resolve (fs : Fs) (follow : Bool) (path : Text) : Option Loc :=
  (fs.locate follow path).filter fun loc => (fs.entry loc).isSome

def lookup (fs : Fs) (follow : Bool) (path : Text) : Option Entry :=
  (fs.locate follow path).bind fs.entry

def insert (fs : Fs) (loc : Loc) (e : Entry) : Fs :=
  { fs with nodes := (loc, e) :: fs.nodes }

def removeIf (fs : Fs) (p : Loc → Bool) : Fs :=
  { fs with nodes := fs.nodes.filter fun x => !p x.1 }

def names (fs : Fs) (loc : Loc) : List Text :=
  (fs.nodes.filterMap fun x =>
    if x.1.dropLast = loc ∧ x.1 ≠ [] then x.1.getLast? else none).dedup.filter
      fun n => decide (ValidName n)

/-- `names` lists a directory, each name once and in any order. -/
def Lists (fs : Fs) (loc : Loc) (names : List Text) : Prop :=
  names.Nodup ∧ ∀ n, n ∈ names ↔ ValidName n ∧ (fs.entry (loc ++ [n])).isSome

/-- What `stat` and `chmod` work on: the attributes of a directory or of a file. -/
def attrs (fs : Fs) (loc : Loc) : Option Attrs :=
  match fs.entry loc with
  | some .dir => some (fs.dirAttrs loc)
  | some (.file ino) => some (fs.inode ino).attrs
  | _ => none

def setDirAttrs (fs : Fs) (loc : Loc) (a : Attrs) : Fs :=
  { fs with dirAttrs := fun x => if x = loc then a else fs.dirAttrs x }

def setInode (fs : Fs) (ino : Nat) (i : Inode) : Fs :=
  { fs with inode := fun x => if x = ino then i else fs.inode x }

/-- The location of a new entry: the directory is there and the name is not. -/
def place (fs : Fs) (path : Text) : Option Loc :=
  (fs.locate false path).filter fun loc => (fs.entry loc).isNone

/-- The path without the slashes at its end, which `mkdir` passes over. -/
def dirPath (path : Text) : Text :=
  if path.all (· = '/') then path else path.rdropWhile (· = '/')

def placeDir (fs : Fs) (path : Text) : Option Loc := fs.place (dirPath path)

def mkdir (fs : Fs) (path : Text) (a : Attrs) : Option Fs :=
  (fs.placeDir path).map fun loc => (fs.insert loc .dir).setDirAttrs loc a

def symlink (fs : Fs) (target path : Text) : Option Fs :=
  if target = [] then none else (fs.place path).map fun loc => fs.insert loc (.symlink target)

/-- The new name shares what the old name stands for; directories have one name only. -/
def link (fs : Fs) (src dst : Text) : Option Fs :=
  match fs.lookup false src with
  | none | some .dir => none
  | some e => (fs.place dst).map fun loc => fs.insert loc e

def create (fs : Fs) (loc : Loc) (i : Inode) : Fs :=
  { (fs.insert loc (.file fs.nextIno)).setInode fs.nextIno i with nextIno := fs.nextIno + 1 }

/-- `open` for writing: a file that exists is emptied, whatever name it is reached by. -/
def openWrite (fs : Fs) (path : Text) (a : Attrs) (content : Text) : Option Fs :=
  (fs.locate true path).bind fun loc =>
    match fs.entry loc with
    | none => some (fs.create loc ⟨.reg, a, content, 0⟩)
    | some (.file ino) => some (fs.setInode ino { fs.inode ino with content := content })
    | some _ => none

def contentAt (fs : Fs) (path : Text) : Text :=
  match fs.lookup true path with
  | some (.file ino) => (fs.inode ino).content
  | _ => []

def mknod (fs : Fs) (path : Text) (kind : FileKind) (a : Attrs) (rdev : Nat) : Option Fs :=
  (fs.place path).map fun loc => fs.create loc ⟨kind, a, [], rdev⟩

def unlink (fs : Fs) (path : Text) : Option Fs :=
  match fs.locate false path with
  | none => none
  | some loc =>
      match fs.entry loc with
      | none | some .dir => none
      | some _ => some (fs.removeIf (· = loc))

def setAttrs (fs : Fs) (path : Text) (f : Attrs → Attrs) : Option Fs :=
  (fs.locate true path).bind fun loc =>
    match fs.entry loc with
    | some .dir => some (fs.setDirAttrs loc (f (fs.dirAttrs loc)))
    | some (.file ino) =>
        some (fs.setInode ino { fs.inode ino with attrs := f (fs.inode ino).attrs })
    | _ => none

theorem entry_root (fs : Fs) : fs.entry [] = some .dir := if_pos rfl

theorem mem_nodes {fs : Fs} {loc : Loc} {e : Entry} (hloc : loc ≠ [])
    (h : fs.entry loc = some e) : (loc, e) ∈ fs.nodes := by
  rw [entry, if_neg hloc] at h
  obtain ⟨before, behind, hnodes, -⟩ := List.lookup_eq_some_iff.mp h
  rw [hnodes]
  simp

theorem symlink_mem_nodes {fs : Fs} {loc : Loc} {t : Text} (h : fs.entry loc = some (.symlink t)) :
    (loc, .symlink t) ∈ fs.nodes := by
  refine mem_nodes (fun hroot => ?_) h
  rw [hroot, entry_root] at h
  cases h

theorem entry_insert (fs : Fs) {loc : Loc} (h : loc ≠ []) (e : Entry) (x : Loc) :
    (fs.insert loc e).entry x = if x = loc then some e else fs.entry x := by
  simp only [entry, insert, List.lookup_cons]
  by_cases hx : x = loc
  · subst hx
    simp [h]
  · have hbeq : (x == loc) = false := beq_false_of_ne hx
    simp only [hbeq, if_neg hx]

/-- Filtering by the location hides what stands at the others. -/
theorem lookup_filter_loc (nodes : List (Loc × Entry)) (p : Loc → Bool) (x : Loc) :
    (nodes.filter fun y => p y.1).lookup x = if p x then nodes.lookup x else none := by
  induction nodes with
  | nil => simp
  | cons y nodes ih =>
      obtain ⟨loc, e⟩ := y
      by_cases hx : x = loc
      · subst hx
        cases hp : p x with
        | true => simp [hp, List.lookup_cons_self]
        | false => simp [hp, ih]
      · have hbeq : (x == loc) = false := beq_false_of_ne hx
        cases hp : p loc with
        | true => simp [hp, List.lookup_cons, hbeq, ih]
        | false => simp [hp, List.lookup_cons, hbeq, ih]

theorem entry_removeIf (fs : Fs) (p : Loc → Bool) {x : Loc} (hx : x ≠ []) :
    (fs.removeIf p).entry x = if p x then none else fs.entry x := by
  simp only [entry, removeIf, if_neg hx]
  rw [lookup_filter_loc fs.nodes (fun y => !p y) x]
  cases p x <;> rfl

theorem lookup_isSome_iff (nodes : List (Loc × Entry)) (x : Loc) :
    (nodes.lookup x).isSome ↔ ∃ y ∈ nodes, y.1 = x := by
  induction nodes with
  | nil => simp
  | cons y nodes ih =>
      rw [List.lookup_cons]
      cases hx : x == y.1 with
      | true => simp [eq_of_beq hx]
      | false =>
          have hne : y.1 ≠ x := fun h => by simp [h] at hx
          simp [ih, hne]

theorem lists_names (fs : Fs) (loc : Loc) : fs.Lists loc (fs.names loc) := by
  refine ⟨(List.nodup_dedup _).filter _, fun n => ?_⟩
  have hne : loc ++ [n] ≠ [] := by simp
  simp only [names, List.mem_filter, List.mem_dedup, List.mem_filterMap, decide_eq_true_eq,
    entry, if_neg hne, lookup_isSome_iff]
  rw [and_comm]
  refine and_congr_right fun _ => exists_congr fun y => and_congr_right fun _ => ?_
  constructor
  · intro h
    split at h
    next hy =>
      have hlast := List.dropLast_append_getLast? n h
      rw [hy.1] at hlast
      exact hlast.symm
    next => cases h
  · intro h
    rw [h]
    simp

/-- Nothing has become a symlink, and what was one is the same or gone. -/
def KeepsLinks (fs fs' : Fs) : Prop :=
  fs'.cwd = fs.cwd ∧ ∀ loc target,
    (fs'.entry loc = some (.symlink target) → fs.entry loc = some (.symlink target)) ∧
    (fs.entry loc = some (.symlink target) →
      fs'.entry loc = some (.symlink target) ∨ fs'.entry loc = none)

theorem resolve_eq_some {fs : Fs} {follow : Bool} {path : Text} {loc : Loc} :
    fs.resolve follow path = some loc ↔
      fs.locate follow path = some loc ∧ (fs.entry loc).isSome := by
  simp only [resolve, Option.filter_eq_some_iff]

def Nested (fs : Fs) : Prop :=
  ∀ loc name, (fs.entry (loc ++ [name])).isSome → fs.entry loc = some .dir

theorem nested_of_nodes {fs : Fs}
    (h : ∀ y ∈ fs.nodes, fs.entry y.1.dropLast = some .dir) : fs.Nested := by
  intro loc name hsome
  rw [entry, if_neg (by simp), lookup_isSome_iff] at hsome
  obtain ⟨y, hy, heq⟩ := hsome
  have hdir := h y hy
  rwa [heq, List.dropLast_concat] at hdir

theorem entry_below_none {fs : Fs} (h : fs.Nested) {loc x : Loc} (hloc : fs.entry loc = none)
    (hx : loc <+: x) : fs.entry x = none := by
  obtain ⟨rest, hrest⟩ := hx
  induction rest using List.reverseRecOn generalizing x with
  | nil => rw [← hrest, List.append_nil, hloc]
  | append_singleton rest name ih =>
      rw [← hrest, ← List.append_assoc]
      cases he : fs.entry (loc ++ rest ++ [name]) with
      | none => rfl
      | some e =>
          have hdir := h (loc ++ rest) name (by rw [he]; rfl)
          rw [ih rfl] at hdir
          cases hdir

theorem entry_above {fs : Fs} (h : fs.Nested) {loc rest : Loc} (hrest : rest ≠ [])
    (hsome : (fs.entry (loc ++ rest)).isSome) : fs.entry loc = some .dir := by
  induction rest using List.reverseRecOn with
  | nil => exact absurd rfl hrest
  | append_singleton rest name ih =>
      rw [← List.append_assoc] at hsome
      have hdir := h (loc ++ rest) name hsome
      cases rest with
      | nil => rwa [List.append_nil] at hdir
      | cons x rest => exact ih (List.cons_ne_nil x rest) (by rw [hdir]; rfl)

def SameEntries (fs fs' : Fs) : Prop := fs'.cwd = fs.cwd ∧ ∀ x, fs'.entry x = fs.entry x

/-- One entry more, where there was none. -/
def Adds (fs fs' : Fs) (loc : Loc) (e : Entry) : Prop :=
  fs.entry loc = none ∧ fs'.cwd = fs.cwd ∧
    ∀ x, fs'.entry x = if x = loc then some e else fs.entry x

theorem adds_insert {fs : Fs} {loc : Loc} (h : fs.entry loc = none) (e : Entry) :
    Adds fs (fs.insert loc e) loc e := by
  have hne : loc ≠ [] := by
    intro hroot
    rw [hroot, entry_root] at h
    cases h
  exact ⟨h, rfl, entry_insert fs hne e⟩

theorem place_eq_some {fs : Fs} {path : Text} {loc : Loc} :
    fs.place path = some loc ↔ fs.locate false path = some loc ∧ fs.entry loc = none := by
  simp only [place, Option.filter_eq_some_iff, Option.isNone_iff_eq_none]

theorem dirPath_of_last {path : Text} (h : path.getLast? ≠ some '/') : dirPath path = path := by
  rw [dirPath]
  split
  · rfl
  · exact List.rdropWhile_eq_self_iff.mpr fun hne hlast =>
      h (by rw [List.getLast?_eq_some_getLast hne]; simpa using hlast)

theorem placeDir_of_last {fs : Fs} {path : Text} (h : path.getLast? ≠ some '/') :
    fs.placeDir path = fs.place path := by rw [placeDir, dirPath_of_last h]

/-- A path with a name at its end has no slash there. -/
theorem getLast?_name (path : Text) {name : Text} (hname : ValidName name) :
    (path ++ name).getLast? ≠ some '/' := by
  obtain ⟨hne, -, -, hslash⟩ := hname
  rw [List.getLast?_append_of_ne_nil _ hne]
  exact fun hlast => hslash (List.mem_of_getLast? hlast)

theorem getLast?_child (path : Text) {name : Text} (hname : ValidName name) :
    (path ++ '/' :: name).getLast? ≠ some '/' := by
  have hlast := getLast?_name (path ++ ['/']) hname
  rwa [List.append_assoc, List.singleton_append] at hlast

theorem placeDir_child {fs : Fs} {path name : Text} (hname : ValidName name) :
    fs.placeDir (path ++ '/' :: name) = fs.place (path ++ '/' :: name) :=
  placeDir_of_last (getLast?_child path hname)

theorem place_of_missing {fs : Fs} {path : Text} {loc : Loc}
    (hloc : fs.locate false path = some loc) (hmissing : fs.lookup false path = none) :
    fs.entry loc = none ∧ fs.place path = some loc := by
  rw [lookup, hloc, Option.bind_some] at hmissing
  exact ⟨hmissing, place_eq_some.mpr ⟨hloc, hmissing⟩⟩

theorem keepsLinks_adds {fs fs' : Fs} {loc : Loc} {e : Entry} (h : Adds fs fs' loc e)
    (he : ∀ t, e ≠ .symlink t) : KeepsLinks fs fs' := by
  obtain ⟨hnone, hcwd, hentry⟩ := h
  refine ⟨hcwd, fun x t => ?_⟩
  rw [hentry]
  split
  next hx =>
    refine ⟨fun heq => absurd (Option.some.inj heq) (he t), fun hlink => ?_⟩
    rw [hx, hnone] at hlink
    cases hlink
  next => exact ⟨id, Or.inl⟩

theorem mkdir_adds {fs fs' : Fs} {path : Text} {a : Attrs} (h : fs.mkdir path a = some fs') :
    ∃ loc, fs.placeDir path = some loc ∧ Adds fs fs' loc .dir := by
  obtain ⟨loc, hplace, hfs⟩ := Option.map_eq_some_iff.mp h
  subst hfs
  exact ⟨loc, hplace, adds_insert (place_eq_some.mp hplace).2 .dir⟩

theorem symlink_eq_some {fs fs' : Fs} {target path : Text}
    (h : fs.symlink target path = some fs') :
    ∃ loc, fs.place path = some loc ∧ fs' = fs.insert loc (.symlink target) := by
  rw [symlink] at h
  split at h
  · cases h
  · obtain ⟨loc, hplace, hfs⟩ := Option.map_eq_some_iff.mp h
    exact ⟨loc, hplace, hfs.symm⟩

theorem link_eq_some {fs fs' : Fs} {src dst : Text} (h : fs.link src dst = some fs') :
    ∃ loc e, fs.place dst = some loc ∧ fs.lookup false src = some e ∧ e ≠ .dir ∧
      fs' = fs.insert loc e := by
  rw [link] at h
  split at h
  · cases h
  · cases h
  next e hdir hsrc =>
    obtain ⟨loc, hplace, hfs⟩ := Option.map_eq_some_iff.mp h
    exact ⟨loc, e, hplace, hsrc, hdir, hfs.symm⟩

theorem mknod_eq_some {fs fs' : Fs} {path : Text} {kind : FileKind} {a : Attrs} {rdev : Nat}
    (h : fs.mknod path kind a rdev = some fs') :
    ∃ loc, fs.place path = some loc ∧ fs' = fs.create loc ⟨kind, a, [], rdev⟩ := by
  obtain ⟨loc, hplace, hfs⟩ := Option.map_eq_some_iff.mp h
  exact ⟨loc, hplace, hfs.symm⟩

theorem openWrite_eq_some {fs fs' : Fs} {path content : Text} {a : Attrs}
    (h : fs.openWrite path a content = some fs') :
    ∃ loc, fs.locate true path = some loc ∧
      (fs.entry loc = none ∧ fs' = fs.create loc ⟨.reg, a, content, 0⟩ ∨
        ∃ ino, fs.entry loc = some (.file ino) ∧
          fs' = fs.setInode ino { fs.inode ino with content := content }) := by
  obtain ⟨loc, hloc, hopen⟩ := Option.bind_eq_some_iff.mp h
  refine ⟨loc, hloc, ?_⟩
  cases he : fs.entry loc with
  | none =>
      simp only [he, Option.some.injEq] at hopen
      exact Or.inl ⟨rfl, hopen.symm⟩
  | some e =>
      cases e with
      | file ino =>
          simp only [he, Option.some.injEq] at hopen
          exact Or.inr ⟨ino, rfl, hopen.symm⟩
      | dir | symlink t => simp [he] at hopen

theorem setAttrs_eq_some {fs fs' : Fs} {path : Text} {f : Attrs → Attrs}
    (h : fs.setAttrs path f = some fs') :
    ∃ loc, fs.locate true path = some loc ∧
      (fs.entry loc = some .dir ∧ fs' = fs.setDirAttrs loc (f (fs.dirAttrs loc)) ∨
        ∃ ino, fs.entry loc = some (.file ino) ∧
          fs' = fs.setInode ino { fs.inode ino with attrs := f (fs.inode ino).attrs }) := by
  obtain ⟨loc, hloc, hset⟩ := Option.bind_eq_some_iff.mp h
  refine ⟨loc, hloc, ?_⟩
  cases he : fs.entry loc with
  | none => simp [he] at hset
  | some e =>
      cases e with
      | symlink t => simp [he] at hset
      | dir =>
          simp only [he, Option.some.injEq] at hset
          exact Or.inl ⟨rfl, hset.symm⟩
      | file ino =>
          simp only [he, Option.some.injEq] at hset
          exact Or.inr ⟨ino, rfl, hset.symm⟩

theorem openWrite_changes {fs fs' : Fs} {path content : Text} {a : Attrs}
    (h : fs.openWrite path a content = some fs') :
    SameEntries fs fs' ∨
      ∃ loc, fs.locate true path = some loc ∧ Adds fs fs' loc (.file fs.nextIno) := by
  obtain ⟨loc, hloc, ⟨hnone, rfl⟩ | ⟨ino, -, rfl⟩⟩ := openWrite_eq_some h
  · exact Or.inr ⟨loc, hloc, adds_insert hnone _⟩
  · exact Or.inl ⟨rfl, fun _ => rfl⟩

/-- Entries have gone, but no directory. -/
def Shrinks (fs fs' : Fs) : Prop :=
  fs'.cwd = fs.cwd ∧ ∀ x, fs'.entry x = fs.entry x ∨
    fs'.entry x = none ∧ fs.entry x ≠ some .dir

theorem shrinks_refl (fs : Fs) : Shrinks fs fs := ⟨rfl, fun _ => Or.inl rfl⟩

theorem shrinks_trans {fs fs' fs'' : Fs} (h : Shrinks fs fs') (h' : Shrinks fs' fs'') :
    Shrinks fs fs'' := by
  refine ⟨h'.1.trans h.1, fun x => ?_⟩
  cases h'.2 x with
  | inl hsame' =>
      rw [hsame']
      exact h.2 x
  | inr hgone' =>
      cases h.2 x with
      | inl hsame => exact Or.inr ⟨hgone'.1, hsame ▸ hgone'.2⟩
      | inr hgone => exact Or.inr ⟨hgone'.1, hgone.2⟩

theorem keepsLinks_of_shrinks {fs fs' : Fs} (h : Shrinks fs fs') : KeepsLinks fs fs' := by
  refine ⟨h.1, fun loc target => ?_⟩
  cases h.2 loc with
  | inl hsame =>
      rw [hsame]
      exact ⟨id, Or.inl⟩
  | inr hgone =>
      rw [hgone.1]
      exact ⟨fun hnone => (by cases hnone), fun _ => Or.inr rfl⟩

theorem unlink_eq_some {fs fs' : Fs} {path : Text} (h : fs.unlink path = some fs') :
    ∃ loc, fs.locate false path = some loc ∧ (fs.entry loc).isSome ∧
      fs.entry loc ≠ some .dir ∧ fs' = fs.removeIf (· = loc) := by
  rw [unlink] at h
  cases hloc : fs.locate false path with
  | none => simp [hloc] at h
  | some loc =>
      cases he : fs.entry loc with
      | none => simp [hloc, he] at h
      | some e =>
          cases e with
          | dir => simp [hloc, he] at h
          | file ino | symlink t =>
              simp only [hloc, he, Option.some.injEq] at h
              exact ⟨loc, rfl, by rw [he]; rfl, by simp [he], h.symm⟩

theorem entry_unlinked {fs : Fs} {loc : Loc} (hdir : fs.entry loc ≠ some .dir) (x : Loc) :
    (fs.removeIf (· = loc)).entry x = if x = loc then none else fs.entry x := by
  by_cases hx : x = []
  · have hne : x ≠ loc := by
      intro heq
      rw [← heq, hx, entry_root] at hdir
      exact hdir rfl
    rw [if_neg hne, hx, entry_root, entry_root]
  · rw [entry_removeIf fs _ hx]
    simp

theorem unlink_shrinks {fs fs' : Fs} {path : Text} (h : fs.unlink path = some fs') :
    Shrinks fs fs' := by
  obtain ⟨loc, _, _, hdir, hfs'⟩ := unlink_eq_some h
  subst hfs'
  refine ⟨rfl, fun x => ?_⟩
  rw [entry_unlinked hdir]
  split
  next hx => exact Or.inr ⟨rfl, by rw [hx]; exact hdir⟩
  next => exact Or.inl rfl

theorem setAttrs_same {fs fs' : Fs} {path : Text} {f : Attrs → Attrs}
    (h : fs.setAttrs path f = some fs') : SameEntries fs fs' := by
  obtain ⟨loc, -, ⟨-, rfl⟩ | ⟨ino, -, rfl⟩⟩ := setAttrs_eq_some h
  · exact ⟨rfl, fun _ => rfl⟩
  · exact ⟨rfl, fun _ => rfl⟩

end Fs
end Jailkit
