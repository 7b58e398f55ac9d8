import Jailkit.JkLib.Targets
import Jailkit.Tools.Alters

/-!
A directory that is moved, by its parts: what has to hold before it and before each directory
in it is moved, what each of these moves leaves of that, and what they come to together.
-/
namespace Jailkit.Tools

open JkLib Fs

/-- Each file below `S` has its like below `D`. -/
def Copied (S D : Loc) (fs fs' : Fs) : Prop :=
  ∀ rel content, (∀ n ∈ rel, ValidName n) → fs.HasContent (S ++ rel) content →
    fs'.HasContent (D ++ rel) content

/-- What stands below `S` stands in directories. -/
def TreeAt (S : Loc) (fs : Fs) : Prop :=
  ∀ r r', r' ≠ [] → (fs.entry (S ++ r ++ r')).isSome → fs.entry (S ++ r) = some .dir

/-- No location is below both. -/
def Apart (S D : Loc) : Prop := ∀ x, S <+: x → ¬ D <+: x

/-- The directory `S` can be moved to `D`, where nothing stands. -/
structure Ready (S D : Loc) (fs : Fs) : Prop where
  numbered : fs.Numbered
  dir : fs.entry S = some .dir
  calm : Calm S fs
  bare : ∀ x, D <+: x → fs.entry x = none
  parents : S <+: D → ∀ x, x <+: D → x ≠ D → fs.entry x = some .dir
  valid : ∀ n ∈ D, ValidName n

/-- The directory `D` has been made for it. -/
structure Begun (S D : Loc) (fs : Fs) : Prop where
  numbered : fs.Numbered
  dir : fs.entry S = some .dir
  calm : Calm S fs
  distinct : S ≠ D
  made : fs.entry D = some .dir
  bare : ∀ x, D <+: x → x ≠ D → fs.entry x = none
  parents : S <+: D → ∀ x, x <+: D → fs.entry x = some .dir
  valid : ∀ n ∈ D, ValidName n

/-- How a move can end: all is copied, or nothing is changed but what was made. -/
def Settles (S D : Loc) (fs fs' : Fs) : Prop :=
  ¬ S <+: D ∧ (TreeAt S fs → Copied S D fs fs') ∨ ∀ x, ¬ D <+: x → fs'.entry x = fs.entry x

/-- What comes of a directory in `S`: it is left, or all of it is where it should be. -/
def Accounted (S D : Loc) (name : Text) (fs fs' : Fs) : Prop :=
  fs'.entry (S ++ [name]) = none → ¬ S ++ [name] <+: D ++ [name] ∧
    (Apart S D → TreeAt (S ++ [name]) fs → Copied (S ++ [name]) (D ++ [name]) fs fs')

/-- What the copy of a directory comes to: all is copied, or nothing is changed but what was
made, and then the source is kept or was not there to be listed. -/
def CopyEnds (src : Text) (S D : Loc) (fs : Fs) (ok : Bool) (fs' : Fs) : Prop :=
  ¬ S <+: D ∧ (TreeAt S fs → Copied S D fs fs') ∨
    (∀ x, ¬ D <+: x → fs'.entry x = fs.entry x) ∧ (ok = true → fs'.lookup true src ≠ some .dir)

section

variable {fs fs' fs'' : Fs} {S D L x : Loc} {dst n m : Text} {names files dirs : List Text}

theorem snoc_prefix_eq (h : L ++ [n] <+: x) (h' : L ++ [m] <+: x) : n = m := by
  have hle : (L ++ [n]).length ≤ (L ++ [m]).length := by simp
  have heq := (List.prefix_of_prefix_length_le h h' hle).eq_of_length (by simp)
  simpa using heq

theorem prefix_of_snoc (h : x <+: L ++ [n]) (hne : x ≠ L ++ [n]) : x <+: L := by
  cases List.prefix_concat_iff.mp h with
  | inl heq => exact absurd heq hne
  | inr hbelow => exact hbelow

theorem apart_of_dir (hdir : fs.entry S = some .dir) (hbare : D <+: S → fs.entry S = none)
    (hout : ¬ S <+: D) : Apart S D := by
  intro x hS hD
  cases List.prefix_or_prefix_of_prefix hS hD with
  | inl hin => exact hout hin
  | inr hin =>
      rw [hbare hin] at hdir
      cases hdir

theorem ready_apart (h : Ready S D fs) (hout : ¬ S <+: D) : Apart S D :=
  apart_of_dir h.dir (h.bare S) hout

theorem ready_outside (h : Ready S D fs) : ¬ D <+: S := by
  intro hin
  have hnone := h.bare S hin
  rw [h.dir] at hnone
  cases hnone

theorem begun_apart (h : Begun S D fs) (hout : ¬ S <+: D) : Apart S D :=
  apart_of_dir h.dir (fun hin => h.bare S hin h.distinct) hout

theorem begun_calm (h : Begun S D fs) : Calm D fs := by
  intro x t hx he
  by_cases hD : x = D
  · rw [hD, h.made] at he
    cases he
  · rw [h.bare x hx hD] at he
    cases he

theorem treeAt_same (h : TreeAt S fs) (hsame : ∀ x, S <+: x → fs'.entry x = fs.entry x) :
    TreeAt S fs' := by
  intro r r' hr' hsome
  have hin : S <+: S ++ r := List.prefix_append S r
  rw [hsame _ (hin.trans (List.prefix_append _ r'))] at hsome
  rw [hsame _ hin]
  exact h r r' hr' hsome

theorem copied_congr {fs₁ fs₂ fs₃ fs₄ : Fs} (h : Copied S D fs₂ fs₃)
    (hsrc : ∀ x content, S <+: x → fs₁.HasContent x content → fs₂.HasContent x content)
    (hdst : ∀ x content, D <+: x → fs₃.HasContent x content → fs₄.HasContent x content) :
    Copied S D fs₁ fs₄ := by
  intro rel content hvalid hcontent
  apply hdst _ _ (List.prefix_append D rel)
  exact h rel content hvalid (hsrc _ _ (List.prefix_append S rel) hcontent)

theorem accounted_of_settles (h : Ready (S ++ [n]) (D ++ [n]) fs)
    (hend : Settles (S ++ [n]) (D ++ [n]) fs fs') : Accounted S D n fs fs' := by
  intro hgone
  cases hend with
  | inl hcopied => exact ⟨hcopied.1, fun _ => hcopied.2⟩
  | inr hsame =>
      rw [hsame _ (ready_outside h), h.dir] at hgone
      cases hgone

/-- The other directories in `S` are not touched. -/
theorem ready_changes (h : Ready (S ++ [m]) (D ++ [m]) fs)
    (h' : Ready (S ++ [n]) (D ++ [n]) fs) (hne : n ≠ m)
    (hc : Changes (D ++ [n] <+: ·) (S ++ [n] <+: ·) fs fs') : Ready (S ++ [m]) (D ++ [m]) fs' := by
  have hmade : ∀ x, (fs.entry x).isSome → ¬ D ++ [n] <+: x := by
    intro x hsome hin
    rw [h'.bare x hin] at hsome
    cases hsome
  refine ⟨hc.numbered h.numbered, ?_, calm_changes h.calm hc, ?_, ?_, h.valid⟩
  · rw [entry_changes hc (hmade _ (by rw [h.dir]; rfl)) fun hin =>
      hne (snoc_prefix_eq hin List.prefix_rfl), h.dir]
  · exact fun x hx => none_changes hc (fun hin => hne (snoc_prefix_eq hin hx)) (h.bare x hx)
  · intro hin x hx hxD
    have hdir := h.parents hin x hx hxD
    rw [entry_changes hc (hmade x (by rw [hdir]; rfl)) ?_, hdir]
    intro hgone
    have hself : S ++ [m] ≠ D ++ [m] := fun heq => ready_outside h (by rw [heq])
    exact hne (snoc_prefix_eq (hgone.trans (prefix_of_snoc hx hxD)) (prefix_of_snoc hin hself))

/-- The moves of other directories that follow change nothing of it. -/
theorem accounted_after (h : Accounted S D m fs fs') (hnumbered : fs'.Numbered) (hm : m ∉ names)
    (hready : ∀ n ∈ names, Ready (S ++ [n]) (D ++ [n]) fs')
    (hc : Changes (fun x => ∃ n ∈ names, D ++ [n] <+: x) (fun x => ∃ n ∈ names, S ++ [n] <+: x)
      fs' fs'') : Accounted S D m fs fs'' := by
  have hgone : ∀ x, S ++ [m] <+: x → ¬ ∃ n ∈ names, S ++ [n] <+: x := by
    intro x hx hin
    obtain ⟨n, hn, hin⟩ := hin
    exact hm (snoc_prefix_eq hin hx ▸ hn)
  have hleft : fs''.entry (S ++ [m]) = none → fs'.entry (S ++ [m]) = none := by
    intro hnone
    cases he : fs'.entry (S ++ [m]) with
    | none => rfl
    | some e =>
        rw [entry_changes hc ?_ (hgone _ List.prefix_rfl), he] at hnone
        · cases hnone
        · intro hin
          obtain ⟨n, hn, hin⟩ := hin
          rw [(hready n hn).bare _ hin] at he
          cases he
  intro hnone
  obtain ⟨hout, hcopied⟩ := h (hleft hnone)
  refine ⟨hout, fun hapart htree => copied_congr (hcopied hapart htree) (fun _ _ _ h => h) ?_⟩
  intro x content hx hcontent
  refine content_changes hc hnumbered ?_ ?_ hcontent
  · intro hin
    obtain ⟨n, hn, hin⟩ := hin
    exact hm (snoc_prefix_eq hin hx ▸ hn)
  · intro hin
    obtain ⟨n, -, hin⟩ := hin
    exact hapart x ((List.prefix_append S [n]).trans hin) ((List.prefix_append D [m]).trans hx)

/-- Nor have those before it. -/
theorem accounted_before (h : Accounted S D m fs' fs'') (hnumbered : fs.Numbered) (hne : n ≠ m)
    (hc : Changes (D ++ [n] <+: ·) (S ++ [n] <+: ·) fs fs') : Accounted S D m fs fs'' := by
  intro hnone
  obtain ⟨hout, hcopied⟩ := h hnone
  refine ⟨hout, fun hapart htree => ?_⟩
  have hsame : ∀ x, S ++ [m] <+: x → fs'.entry x = fs.entry x := by
    intro x hx
    apply entry_changes hc
    · exact fun hin => hapart x ((List.prefix_append S [m]).trans hx)
        ((List.prefix_append D [n]).trans hin)
    · exact fun hin => hne (snoc_prefix_eq hin hx)
  exact copied_congr (hcopied hapart (treeAt_same htree hsame))
    (fun x _ hx hcontent => content_of_entry hc hnumbered (hsame x hx) hcontent) fun _ _ _ h => h

theorem ready_of_sound (h : Sound fs) (hdir : fs.entry S = some .dir) (hcalm : Calm S fs)
    (hplace : fs.placeDir dst = some D) : Ready S D fs := by
  obtain ⟨hloc, hnone⟩ := place_eq_some.mp hplace
  refine ⟨h.numbered, hdir, hcalm, fun x hx => entry_below_none h.nested hnone hx, ?_,
    locate_valid h.cwd hloc⟩
  intro _ x hx hxD
  have hparent := place_parent h.nested hplace
  obtain ⟨r, hr⟩ := hx
  have hrest : r ≠ [] := fun hnil => hxD (by rw [← hr, hnil, List.append_nil])
  rw [← hr, List.dropLast_append_of_ne_nil hrest] at hparent
  by_cases hlast : r.dropLast = []
  · rwa [hlast, List.append_nil] at hparent
  · exact entry_above h.nested hlast (by rw [hparent]; rfl)

theorem begun_of_ready (h : Ready S D fs) (hdir : fs'.entry D = some .dir)
    (hc : Changes (· = D) (fun _ => False) fs fs') : Begun S D fs' := by
  have hne : S ≠ D := fun heq => ready_outside h (by rw [heq])
  refine ⟨hc.numbered h.numbered, ?_, calm_changes h.calm hc, hne, hdir, ?_, ?_, h.valid⟩
  · rw [entry_changes hc hne id, h.dir]
  · exact fun x hx hxD => none_changes hc hxD (h.bare x hx)
  · intro hin x hx
    by_cases hxD : x = D
    · rw [hxD, hdir]
    · rw [entry_changes hc hxD id, h.parents hin x hx hxD]

theorem ready_of_begun (h : Begun S D fs) (hlist : Listing S fs files dirs)
    (hc : Changes (fun x => ∃ f ∈ files, x = D ++ [f]) (fun _ => False) fs fs') (hn : n ∈ dirs) :
    Ready (S ++ [n]) (D ++ [n]) fs' := by
  obtain ⟨hvalid, hdir⟩ := hlist.dir n hn
  have hbelow : ∀ m x, D ++ [m] <+: x → fs.entry x = none := by
    intro m x hx
    refine h.bare x ((List.prefix_append D [m]).trans hx) fun heq => ?_
    have hle := hx.length_le
    rw [heq, List.length_append, List.length_singleton] at hle
    omega
  have hdirs : ∀ x, fs.entry x = some .dir → fs'.entry x = some .dir := by
    intro x hx
    rw [entry_changes hc ?_ id, hx]
    intro hmade
    obtain ⟨f, -, heq⟩ := hmade
    rw [hbelow f x (by rw [heq])] at hx
    cases hx
  refine ⟨hc.numbered h.numbered, hdirs _ hdir, calm_changes (calm_below h.calm n) hc, ?_, ?_, ?_⟩
  · intro x hx
    refine none_changes hc ?_ (hbelow n x hx)
    intro hmade
    obtain ⟨f, hf, heq⟩ := hmade
    have hsame : n = f := snoc_prefix_eq hx (by rw [heq])
    exact (hlist.file f hf).2 (hsame ▸ hdir)
  · intro hin x hx hxD
    have hself : S ++ [n] ≠ D ++ [n] := fun heq => h.distinct (List.append_cancel_right heq)
    have hS : S <+: D := (List.prefix_append S [n]).trans (prefix_of_snoc hin hself)
    exact hdirs x (h.parents hS x (prefix_of_snoc hx hxD))
  · exact valid_snoc h.valid hvalid

/-- A directory in `S` that holds `D` stays: its move cannot come to an end. -/
theorem outside_of_accounted (h : Begun S D fs) (hlist : Listing S fs files dirs)
    (haccounted : ∀ n ∈ dirs, Accounted S D n fs' fs'')
    (hgone : ∀ n ∈ dirs, fs''.entry (S ++ [n]) = none) : ¬ S <+: D := by
  intro hin
  obtain ⟨rest, hrest⟩ := hin
  cases rest with
  | nil => exact h.distinct (by rw [← hrest, List.append_nil])
  | cons n rest =>
      have hway : S ++ [n] <+: D := ⟨rest, by rw [← hrest]; simp⟩
      have hvalid : ValidName n := h.valid n (by rw [← hrest]; simp)
      have hn := hlist.hasDir n hvalid (h.parents ⟨_, hrest⟩ _ hway)
      exact (haccounted n hn (hgone n hn)).1 (hway.trans (List.prefix_append D [n]))

theorem file_kept {content : Text} (hapart : Apart S D) (hlist : Listing S fs files dirs)
    (hnumbered : fs'.Numbered) (hn : n ∈ files)
    (hc : Changes (fun x => ∃ n ∈ dirs, D ++ [n] <+: x) (fun x => ∃ n ∈ dirs, S ++ [n] <+: x)
      fs' fs'') (hcopy : fs'.HasContent (D ++ [n]) content) :
    fs''.HasContent (D ++ [n]) content := by
  refine content_changes hc hnumbered ?_ ?_ hcopy
  · intro hmade
    obtain ⟨m, hm, hin⟩ := hmade
    have heq : m = n := snoc_prefix_eq hin List.prefix_rfl
    exact (hlist.file n hn).2 (heq ▸ (hlist.dir m hm).2)
  · intro hremoved
    obtain ⟨m, -, hin⟩ := hremoved
    exact hapart _ ((List.prefix_append S [m]).trans hin) (List.prefix_append D [n])

/-- When all directories in `S` are gone, `D` is outside and has all that was in `S`. -/
theorem copied_of_accounted (h : Begun S D fs) (hlist : Listing S fs files dirs)
    (hc : Changes (fun x => ∃ f ∈ files, x = D ++ [f]) (fun _ => False) fs fs')
    (hfilled : ∀ f ∈ files, ∀ content, fs.HasContent (S ++ [f]) content →
      fs'.HasContent (D ++ [f]) content)
    (hc' : Changes (fun x => ∃ n ∈ dirs, D ++ [n] <+: x) (fun x => ∃ n ∈ dirs, S ++ [n] <+: x)
      fs' fs'')
    (haccounted : ∀ n ∈ dirs, Accounted S D n fs' fs'')
    (hgone : ∀ n ∈ dirs, fs''.entry (S ++ [n]) = none) :
    ¬ S <+: D ∧ (TreeAt S fs → Copied S D fs fs'') := by
  have hout := outside_of_accounted h hlist haccounted hgone
  have hapart := begun_apart h hout
  refine ⟨hout, fun htree rel content hvalid hcontent => ?_⟩
  have hsame : ∀ x, S <+: x → fs'.entry x = fs.entry x := by
    intro x hx
    refine entry_changes hc ?_ id
    intro hmade
    obtain ⟨f, -, heq⟩ := hmade
    exact hapart x hx (by rw [heq]; exact List.prefix_append D [f])
  cases rel with
  | nil =>
      obtain ⟨ino, he, -⟩ := hcontent
      rw [List.append_nil, h.dir] at he
      cases he
  | cons n rel =>
      have hn := hvalid n List.mem_cons_self
      cases rel with
      | nil =>
          obtain ⟨ino, he, hold⟩ := hcontent
          have hmem := hlist.hasFile n ino hn he
          exact file_kept hapart hlist (hc.numbered h.numbered) hmem hc'
            (hfilled n hmem content ⟨ino, he, hold⟩)
      | cons m rel =>
          have hdir : fs.entry (S ++ [n]) = some .dir := by
            refine htree [n] (m :: rel) (List.cons_ne_nil m rel) ?_
            obtain ⟨ino, he, -⟩ := hcontent
            rw [List.append_assoc, List.singleton_append, he]
            rfl
          have hmem := hlist.hasDir n hn hdir
          have hbelow : TreeAt (S ++ [n]) fs := by
            intro r r' hr' hsome
            rw [List.append_assoc S [n] r] at hsome ⊢
            exact htree _ r' hr' hsome
          have hinto : ∀ x, S ++ [n] <+: x → fs'.entry x = fs.entry x :=
            fun x hx => hsame x ((List.prefix_append S [n]).trans hx)
          have hcopied := (haccounted n hmem (hgone n hmem)).2 hapart (treeAt_same hbelow hinto)
            (m :: rel) content (fun k hk => hvalid k (List.mem_cons_of_mem n hk))
          rw [List.append_assoc, List.append_assoc] at hcopied
          refine hcopied (content_of_entry hc h.numbered ?_ hcontent)
          exact hsame _ (List.prefix_append S _)

end

end Jailkit.Tools
