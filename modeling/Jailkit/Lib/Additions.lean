import Jailkit.Lib.Changes
import Jailkit.Lib.Ways

/-!
Runs that only add: entries appear, none goes, and the files with a number below a bound are
left alone. A path whose file has a number from the bound on may be written to.
-/
namespace Jailkit.Fs

/-- Entries are added, and the files numbered below `n` are what they were. -/
structure Spares (n : Nat) (fs fs' : Fs) : Prop where
  grows : Grows fs fs'
  numbers : fs.nextIno ≤ fs'.nextIno
  inodes : ∀ ino < n, fs'.inode ino = fs.inode ino

def NoNewFiles (fs fs' : Fs) : Prop :=
  ∀ x ino, fs'.entry x = some (.file ino) → fs.entry x = some (.file ino)

/-- A file that the path leads to has a number from `n` on. -/
def FreshAt (n : Nat) (fs : Fs) (path : Text) : Prop :=
  ∀ x ino, fs.locate true path = some x → fs.entry x = some (.file ino) → n ≤ ino

variable {n : Nat} {fs fs' fs'' : Fs} {loc : Loc} {e : Entry} {path : Text}

theorem spares_refl (n : Nat) (fs : Fs) : Spares n fs fs :=
  ⟨grows_refl fs, le_rfl, fun _ _ => rfl⟩

theorem spares_trans (h : Spares n fs fs') (h' : Spares n fs' fs'') : Spares n fs fs'' :=
  ⟨grows_trans h.grows h'.grows, h.numbers.trans h'.numbers,
    fun ino hino => (h'.inodes ino hino).trans (h.inodes ino hino)⟩

theorem noNewFiles_refl (fs : Fs) : NoNewFiles fs fs := fun _ _ h => h

theorem noNewFiles_trans (h : NoNewFiles fs fs') (h' : NoNewFiles fs' fs'') :
    NoNewFiles fs fs'' := fun x ino hx => h x ino (h' x ino hx)

theorem noNewFiles_adds (h : Adds fs fs' loc e) (he : ∀ ino, e ≠ .file ino) :
    NoNewFiles fs fs' := by
  intro x ino hx
  rw [h.2.2] at hx
  split at hx
  · exact absurd (Option.some.inj hx) (he ino)
  · exact hx

theorem spares_insert (h : fs.entry loc = none) (e : Entry) : Spares n fs (fs.insert loc e) :=
  ⟨grows_adds (adds_insert h e), le_rfl, fun _ _ => rfl⟩

theorem adds_create (h : fs.entry loc = none) (i : Inode) :
    Adds fs (fs.create loc i) loc (.file fs.nextIno) := adds_insert h _

/-- A new file takes the next number. -/
theorem spares_create (h : fs.entry loc = none) (i : Inode) (hn : n ≤ fs.nextIno) :
    Spares n fs (fs.create loc i) := by
  refine ⟨grows_adds (adds_create h i), Nat.le_succ _, fun ino hino => ?_⟩
  rw [create, setInode]
  dsimp only
  rw [if_neg (by omega)]
  rfl

theorem spares_mkdir {a : Attrs} (h : fs.mkdir path a = some fs') : Spares n fs fs' := by
  obtain ⟨loc, hplace, hfs⟩ := Option.map_eq_some_iff.mp h
  rw [← hfs]
  apply spares_trans (spares_insert (place_eq_some.mp hplace).2 .dir)
  exact ⟨grows_same ⟨rfl, fun _ => rfl⟩, le_rfl, fun _ _ => rfl⟩

theorem spares_symlink {target : Text} (h : fs.symlink target path = some fs') :
    Spares n fs fs' := by
  obtain ⟨loc, hplace, rfl⟩ := symlink_eq_some h
  exact spares_insert (place_eq_some.mp hplace).2 _

theorem spares_link {src dst : Text} (h : fs.link src dst = some fs') : Spares n fs fs' := by
  obtain ⟨loc, e, hplace, -, -, rfl⟩ := link_eq_some h
  exact spares_insert (place_eq_some.mp hplace).2 _

theorem spares_mknod {kind : FileKind} {a : Attrs} {rdev : Nat} (hn : n ≤ fs.nextIno)
    (h : fs.mknod path kind a rdev = some fs') : Spares n fs fs' := by
  obtain ⟨loc, hplace, rfl⟩ := mknod_eq_some h
  exact spares_create (place_eq_some.mp hplace).2 _ hn

theorem freshAt_adds {follow : Bool} (h : Adds fs fs' loc e) (he : ∀ t, e ≠ .symlink t)
    (hloc : fs.locate follow path = some loc) (hn : ∀ ino, e = .file ino → n ≤ ino) :
    FreshAt n fs' path := by
  intro x ino hx hentry
  have hthere : fs'.resolve true path = some x :=
    resolve_eq_some.mpr ⟨hx, by rw [hentry]; rfl⟩
  have hfollow : FollowsAs fs follow true loc := by
    cases follow with
    | true => exact Or.inl rfl
    | false => exact Or.inr ⟨rfl, fun t => by rw [h.1]; simp⟩
  have heq : x = loc := locate_keepsLinks (keepsLinks_adds h he) hloc hthere hfollow
  rw [heq, h.2.2, if_pos rfl] at hentry
  exact hn ino (Option.some.inj hentry)

theorem freshAt_dirPath (h : FreshAt n fs (dirPath path)) : FreshAt n fs path :=
  fun x ino hx hentry => h x ino (locate_dirPath hx) hentry

theorem freshAt_missing (h : fs.lookup true path = none) : FreshAt n fs path := by
  intro x ino hx hentry
  rw [lookup, hx, Option.bind_some, hentry] at h
  cases h

theorem freshAt_same (h : SameEntries fs fs') (hfresh : FreshAt n fs path) :
    FreshAt n fs' path := by
  intro x ino hx hentry
  have hback : KeepsWays fs' fs :=
    keepsWays_of_grows (grows_same ⟨h.1.symm, fun y => (h.2 y).symm⟩)
  rw [h.2] at hentry
  exact hfresh x ino (locate_keepsWays hback hx (h.2 x).symm) hentry

/-- Attributes are set of a directory, or of a file that is none of the old ones. -/
theorem spares_setAttrs {f : Attrs → Attrs} (hfresh : FreshAt n fs path)
    (h : fs.setAttrs path f = some fs') : Spares n fs fs' := by
  have hgrows := grows_same (setAttrs_same h)
  obtain ⟨loc, hloc, ⟨-, rfl⟩ | ⟨ino, hfile, rfl⟩⟩ := setAttrs_eq_some h
  · exact ⟨hgrows, le_rfl, fun _ _ => rfl⟩
  · have hino := hfresh loc ino hloc hfile
    exact ⟨hgrows, le_rfl, fun i hi => if_neg (by omega)⟩

theorem spares_openWrite {content : Text} {a : Attrs} (hn : n ≤ fs.nextIno)
    (hfile : ∀ x ino, fs.locate true path = some x → fs.entry x ≠ some (.file ino))
    (h : fs.openWrite path a content = some fs') : Spares n fs fs' ∧ FreshAt n fs' path := by
  obtain ⟨loc, hloc, ⟨hnone, rfl⟩ | ⟨ino, hthere, -⟩⟩ := openWrite_eq_some h
  · refine ⟨spares_create hnone _ hn, freshAt_adds (adds_create hnone _) (by simp) hloc ?_⟩
    intro ino hino
    cases hino
    exact hn
  · exact absurd hthere (hfile loc ino hloc)

end Jailkit.Fs
