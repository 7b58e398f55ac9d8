import Jailkit.Lib.Locating

/-!
What a run may change: entries appear in one part of the file system and disappear in another,
nothing becomes a symlink and none goes, and no file that exists gets another content.
-/
namespace Jailkit.Fs

def HasContent (fs : Fs) (x : Loc) (content : Text) : Prop :=
  ∃ ino, fs.entry x = some (.file ino) ∧ (fs.inode ino).content = content

/-- The next number is used by no file. -/
def Numbered (fs : Fs) : Prop := ∀ x ino, fs.entry x = some (.file ino) → ino < fs.nextIno

/-- What holds of every file system. -/
structure Sound (fs : Fs) : Prop where
  nested : fs.Nested
  numbered : fs.Numbered
  cwd : ∀ n ∈ fs.cwd, ValidName n

structure Changes (made gone : Loc → Prop) (fs fs' : Fs) : Prop where
  cwd : fs'.cwd = fs.cwd
  links : ∀ x t, fs'.entry x = some (.symlink t) ↔ fs.entry x = some (.symlink t)
  entries : ∀ x, ¬ made x → fs'.entry x = fs.entry x ∨ gone x ∧ fs'.entry x = none
  numbers : fs.nextIno ≤ fs'.nextIno
  contents : ∀ ino < fs.nextIno, (fs'.inode ino).content = (fs.inode ino).content
  numbered : fs.Numbered → fs'.Numbered

/-- Any entries may change but symlinks. -/
abbrev Evolves : Fs → Fs → Prop := Changes (fun _ => True) (fun _ => True)

abbrev Unmoved : Fs → Fs → Prop := Changes (fun _ => False) (fun _ => False)

variable {made made' gone gone' : Loc → Prop} {fs fs' fs'' : Fs} {x : Loc} {content : Text}

theorem numbered_of_nodes (h : ∀ x ino, (x, .file ino) ∈ fs.nodes → ino < fs.nextIno) :
    fs.Numbered := by
  intro x ino he
  rw [entry] at he
  split at he
  · cases he
  · obtain ⟨before, behind, hnodes, -⟩ := List.lookup_eq_some_iff.mp he
    exact h x ino (by rw [hnodes]; simp)

theorem changes_refl (made gone : Loc → Prop) (fs : Fs) : Changes made gone fs fs where
  cwd := rfl
  links _ _ := Iff.rfl
  entries _ _ := Or.inl rfl
  numbers := le_rfl
  contents _ _ := rfl
  numbered := id

theorem changes_trans (h : Changes made gone fs fs') (h' : Changes made gone fs' fs'') :
    Changes made gone fs fs'' where
  cwd := h'.cwd.trans h.cwd
  links x t := (h'.links x t).trans (h.links x t)
  entries x hx := by
    cases h'.entries x hx with
    | inl hsame =>
        rw [hsame]
        exact h.entries x hx
    | inr hgone => exact Or.inr hgone
  numbers := h.numbers.trans h'.numbers
  contents ino hino :=
    (h'.contents ino (hino.trans_le h.numbers)).trans (h.contents ino hino)
  numbered hn := h'.numbered (h.numbered hn)

theorem changes_mono (h : Changes made gone fs fs') (hmade : ∀ x, made x → made' x)
    (hgone : ∀ x, gone x → gone' x) : Changes made' gone' fs fs' where
  cwd := h.cwd
  links := h.links
  entries x hx := (h.entries x fun hm => hx (hmade x hm)).imp_right fun hg => ⟨hgone x hg.1, hg.2⟩
  numbers := h.numbers
  contents := h.contents
  numbered := h.numbered

theorem evolves_of_changes (h : Changes made gone fs fs') : Evolves fs fs' :=
  changes_mono h (fun _ _ => trivial) fun _ _ => trivial

/-- A run that changes no entry is one of any kind. -/
theorem changes_of_unmoved (h : Unmoved fs fs') : Changes made gone fs fs' :=
  changes_mono h (fun _ hf => hf.elim) fun _ hf => hf.elim

theorem unmoved_entry (h : Unmoved fs fs') (x : Loc) : fs'.entry x = fs.entry x :=
  (h.entries x id).resolve_right fun hgone => hgone.1

theorem keepsLinks_changes (h : Changes made gone fs fs') : KeepsLinks fs fs' :=
  ⟨h.cwd, fun x t => ⟨(h.links x t).mp, fun he => Or.inl ((h.links x t).mpr he)⟩⟩

/-- What stands neither where entries appear nor where they disappear. -/
theorem entry_changes (h : Changes made gone fs fs') (hmade : ¬ made x) (hgone : ¬ gone x) :
    fs'.entry x = fs.entry x :=
  (h.entries x hmade).resolve_right fun hg => hgone hg.1

theorem none_changes (h : Changes made gone fs fs') (hmade : ¬ made x) (hnone : fs.entry x = none) :
    fs'.entry x = none := by
  cases h.entries x hmade with
  | inl hsame => rw [hsame, hnone]
  | inr hgone => exact hgone.2

theorem content_of_entry (h : Changes made gone fs fs') (hn : fs.Numbered)
    (hentry : fs'.entry x = fs.entry x) (hx : fs.HasContent x content) :
    fs'.HasContent x content := by
  obtain ⟨ino, he, hcontent⟩ := hx
  exact ⟨ino, by rw [hentry, he], by rw [h.contents ino (hn x ino he), hcontent]⟩

theorem content_changes (h : Changes made gone fs fs') (hn : fs.Numbered) (hmade : ¬ made x)
    (hgone : ¬ gone x) (hx : fs.HasContent x content) : fs'.HasContent x content :=
  content_of_entry h hn (entry_changes h hmade hgone) hx

theorem changes_setAttrs {path : Text} {f : Attrs → Attrs} (h : fs.setAttrs path f = some fs') :
    Unmoved fs fs' := by
  obtain ⟨hcwd, hentry⟩ := setAttrs_same h
  have hrest : fs'.nextIno = fs.nextIno ∧
      ∀ ino, (fs'.inode ino).content = (fs.inode ino).content := by
    obtain ⟨loc, -, ⟨-, rfl⟩ | ⟨ino, -, rfl⟩⟩ := setAttrs_eq_some h
    · exact ⟨rfl, fun _ => rfl⟩
    · refine ⟨rfl, fun i => ?_⟩
      rw [setInode]
      dsimp only
      split
      next heq => rw [heq]
      next => rfl
  exact {
    cwd := hcwd
    links := fun x t => by rw [hentry]
    entries := fun x _ => Or.inl (hentry x)
    numbers := hrest.1.ge
    contents := fun ino _ => hrest.2 ino
    numbered := fun hn x ino he => by
      rw [hrest.1]
      exact hn x ino (by rwa [hentry] at he) }

/-- One entry more, where there was none. -/
theorem changes_adds {loc : Loc} {e : Entry} (h : Adds fs fs' loc e) (he : ∀ t, e ≠ .symlink t)
    (hnumbers : fs.nextIno ≤ fs'.nextIno)
    (hcontents : ∀ ino < fs.nextIno, (fs'.inode ino).content = (fs.inode ino).content)
    (hfile : ∀ ino, e = .file ino → ino < fs'.nextIno) : Changes (· = loc) gone fs fs' := by
  obtain ⟨hnone, hcwd, hentry⟩ := h
  refine ⟨hcwd, ?_, ?_, hnumbers, hcontents, ?_⟩
  · intro x t
    rw [hentry]
    split
    next hx =>
      rw [hx, hnone]
      exact iff_of_false (fun h => he t (Option.some.inj h)) (by simp)
    next => exact Iff.rfl
  · intro x hx
    rw [hentry, if_neg hx]
    exact Or.inl rfl
  · intro hn x ino hx
    rw [hentry] at hx
    split at hx
    · exact hfile ino (Option.some.inj hx)
    · exact (hn x ino hx).trans_le hnumbers

theorem changes_mkdir {path : Text} {a : Attrs} (h : fs.mkdir path a = some fs') :
    ∃ loc, fs.placeDir path = some loc ∧ fs'.entry loc = some .dir ∧
      Changes (· = loc) (fun _ => False) fs fs' := by
  obtain ⟨loc, hplace, hadds⟩ := mkdir_adds h
  obtain ⟨loc', -, hfs⟩ := Option.map_eq_some_iff.mp h
  refine ⟨loc, hplace, by rw [hadds.2.2, if_pos rfl], ?_⟩
  subst hfs
  exact changes_adds hadds (by simp) le_rfl (fun _ _ => rfl) (by simp)

/-- A file is opened for writing where nothing stands. -/
theorem changes_openWrite {path : Text} {a : Attrs} {loc : Loc}
    (h : fs.openWrite path a content = some fs') (hloc : fs.locate true path = some loc)
    (hnone : fs.entry loc = none) :
    fs'.HasContent loc content ∧ Changes (· = loc) (fun _ => False) fs fs' := by
  rw [openWrite, hloc, Option.bind_some] at h
  simp only [hnone, Option.some.injEq] at h
  subst h
  have hadds : Adds fs (fs.create loc ⟨.reg, a, content, 0⟩) loc (.file fs.nextIno) :=
    adds_insert hnone _
  have hold : ∀ ino < fs.nextIno,
      ((fs.create loc ⟨.reg, a, content, 0⟩).inode ino).content = (fs.inode ino).content := by
    intro ino hino
    rw [create, setInode]
    dsimp only
    rw [if_neg (by omega)]
    rfl
  refine ⟨⟨fs.nextIno, ?_, ?_⟩, changes_adds hadds (by simp) (Nat.le_succ _) hold ?_⟩
  · rw [hadds.2.2, if_pos rfl]
  · rw [create, setInode]
    exact congrArg Inode.content (if_pos rfl)
  · intro ino hino
    cases hino
    exact Nat.lt_succ_self _

theorem changes_removeIf {p : Loc → Bool} (hp : ∀ x, p x = true → gone x)
    (hlinks : ∀ x t, p x = true → fs.entry x ≠ some (.symlink t)) :
    Changes made gone fs (fs.removeIf p) := by
  have hentry : ∀ x, (fs.removeIf p).entry x = fs.entry x ∨
      p x = true ∧ (fs.removeIf p).entry x = none := by
    intro x
    by_cases hroot : x = []
    · rw [hroot, entry_root, entry_root]
      exact Or.inl rfl
    · rw [entry_removeIf fs p hroot]
      cases hpx : p x with
      | true => exact Or.inr ⟨rfl, rfl⟩
      | false => exact Or.inl rfl
  refine ⟨rfl, ?_, ?_, le_rfl, fun _ _ => rfl, ?_⟩
  · intro x t
    cases hentry x with
    | inl hsame => rw [hsame]
    | inr hgone =>
        rw [hgone.2]
        exact iff_of_false (by simp) (hlinks x t hgone.1)
  · exact fun x _ => (hentry x).imp_right fun hg => ⟨hp x hg.1, hg.2⟩
  · intro hn x ino hx
    cases hentry x with
    | inl hsame => exact hn x ino (by rwa [hsame] at hx)
    | inr hgone =>
        rw [hgone.2] at hx
        cases hx

end Jailkit.Fs
