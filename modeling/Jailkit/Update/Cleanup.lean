import Jailkit.Update.Deprecated
import Jailkit.Update.InsideJail
import Mathlib.Data.List.Infix

/-!
The deletion phase of jk_update: what is gone after it, and what is left.
-/
namespace Jailkit.Update

open JkLib Raising Tools
open Fs (ValidName Shrinks NoLinks Blocked pathOf)

/-- The location that these names have below a directory to scan. -/
def Below (fs : Fs) (jail dir : Text) (names : List Text) (L : Loc) : Prop :=
  names ≠ [] ∧ (∀ n ∈ names, ValidName n) ∧
    ∃ d, fs.locate true (jail ++ dir) = some d ∧ L = d ++ names

/-- A regular file below a directory to scan, for whose path the real system has nothing. -/
def Deprecated (fs : Fs) (jail : Text) (dirs : List Text) (L : Loc) : Prop :=
  Regular fs L ∧ (∃ dir ∈ dirs, ∃ names, Below fs jail (scanned jail dir) names L) ∧
    ∀ dir ∈ dirs, ∀ names, Below fs jail (scanned jail dir) names L →
      fs.lookup false (pathOf (scanned jail dir) names) = none

/-- The scan of some directory comes to the location. -/
def Reached (fs : Fs) (jail : Text) (dirs : List Text) (L : Loc) : Prop :=
  ∃ dir ∈ dirs, ∃ names, Below fs jail (scanned jail dir) names L ∧
    Walked fs (scanned jail dir) names

/-- A part of the path up to some slash, or all of it. -/
def OnWay (q path : Text) : Prop := ∃ r, path = q ++ r ∧ (r = [] ∨ r.head? = some '/')

/-- The real system and the jail are two trees: the path that a file of the jail has on the
real system does not lead into the directories to scan in the jail. -/
def Separate (fs : Fs) (jail : Text) (dirs : List Text) : Prop :=
  ∀ dir ∈ dirs, ∀ names L, Below fs jail (scanned jail dir) names L → (fs.entry L).isSome →
    ∀ q X, OnWay q (pathOf (scanned jail dir) names) → fs.locate true q = some X →
      ∀ dir' ∈ dirs, ∀ d, fs.locate true (jail ++ scanned jail dir') = some d → ¬ d <+: X

/-- Entries have gone, and only at such locations. -/
def Clears (fs fs' : Fs) (P : Loc → Prop) : Prop :=
  Shrinks fs fs' ∧ fs'.inode = fs.inode ∧ ∀ L, fs'.entry L = fs.entry L ∨ P L

section

variable {fs fs' : Fs} {jail dir : Text} {P : Loc → Prop}

theorem clears_refl (fs : Fs) : Clears fs fs P :=
  ⟨Fs.shrinks_refl fs, rfl, fun _ => Or.inl rfl⟩

theorem clears_trans {fs'' : Fs} (h : Clears fs fs' P) (h' : Clears fs' fs'' P) :
    Clears fs fs'' P := by
  refine ⟨Fs.shrinks_trans h.1 h'.1, h'.2.1.trans h.2.1, fun L => ?_⟩
  cases h'.2.2 L with
  | inl hsame =>
      rw [hsame]
      exact h.2.2 L
  | inr hP => exact Or.inr hP

theorem clears_mono {P' : Loc → Prop} (h : Clears fs fs' P)
    (hP : ∀ L, (fs.entry L).isSome → P L → P' L) : Clears fs fs' P' := by
  refine ⟨h.1, h.2.1, fun L => ?_⟩
  cases h.2.2 L with
  | inl hsame => exact Or.inl hsame
  | inr hL =>
      cases he : fs.entry L with
      | some e => exact Or.inr (hP L (by rw [he]; rfl) hL)
      | none =>
          cases h.1.2 L with
          | inl hsame => exact Or.inl (hsame.trans he)
          | inr hgone => exact Or.inl hgone.1

theorem regular_of_clears {L : Loc} (h : Clears fs fs' P) (hr : Regular fs' L) :
    Regular fs L := by
  obtain ⟨ino, he, hkind⟩ := hr
  refine ⟨ino, ?_, by rw [← h.2.1, hkind]⟩
  cases h.1.2 L with
  | inl hsame => rw [← hsame, he]
  | inr hgone =>
      rw [hgone.1] at he
      cases he

theorem below_shrinks (hlinks : fs.NoLinks) (h : Shrinks fs fs') (names : List Text) (L : Loc) :
    Below fs' jail dir names L ↔ Below fs jail dir names L := by
  rw [Below, Below, Fs.locate_shrinks hlinks h]

/-- Where the path leads that the scan makes of some names. -/
theorem below_of_locate (hlinks : fs.NoLinks) (hdir : dir.getLast? = some '/')
    (names : List Text) (hvalid : ∀ n ∈ names, ValidName n) (hne : names ≠ []) {L : Loc}
    (h : fs.locate false (jail ++ pathOf dir names) = some L) : Below fs jail dir names L := by
  rw [Fs.append_pathOf] at h
  exact ⟨hne, hvalid, Fs.pathOf_locate hlinks (getLast_append jail hdir) hvalid hne h⟩

theorem locate_of_below (hlinks : fs.NoLinks) (hnested : fs.Nested)
    (hdir : dir.getLast? = some '/') (names : List Text) {L : Loc}
    (h : Below fs jail dir names L) (hsome : (fs.entry L).isSome) :
    fs.locate false (jail ++ pathOf dir names) = some L := by
  obtain ⟨hne, hvalid, d, hd, heq⟩ := h
  subst heq
  rw [Fs.append_pathOf]
  exact Fs.locate_pathOf hlinks hnested false (getLast_append jail hdir) hvalid hne hd hsome

theorem onWay_refl (path : Text) : OnWay path path := ⟨[], (List.append_nil path).symm, Or.inl rfl⟩

theorem onWay_pathOf (name : Text) (names : List Text) :
    OnWay (dir ++ name) (pathOf dir (name :: names)) := by
  cases names with
  | nil => exact ⟨[], by rw [pathOf, List.append_nil], Or.inl rfl⟩
  | cons m names =>
      have hgrow : ∀ (names : List Text) (dir : Text), ∃ r, pathOf dir names = dir ++ r := by
        intro names
        induction names with
        | nil => exact fun dir => ⟨[], (List.append_nil dir).symm⟩
        | cons n names ih =>
            intro dir
            cases names with
            | nil => exact ⟨n, rfl⟩
            | cons n' names =>
                obtain ⟨r, hr⟩ := ih (dir ++ n ++ ['/'])
                exact ⟨n ++ ['/'] ++ r, by rw [pathOf, hr]; simp⟩
      obtain ⟨r, hr⟩ := hgrow (m :: names) (dir ++ name ++ ['/'])
      exact ⟨'/' :: r, by rw [pathOf, hr]; simp, Or.inr rfl⟩

/-- Whether the scan comes to some names depends on what stands along their path. -/
theorem walked_congr (hlinks : fs.NoLinks) (hlinks' : fs'.NoLinks) (names : List Text)
    (hsame : ∀ q, OnWay q (pathOf dir names) → fs'.lookup true q = fs.lookup true q) :
    Walked fs' dir names ↔ Walked fs dir names := by
  have hfollow : ∀ q, fs'.lookup true q = fs.lookup true q →
      fs'.lookup false q = fs.lookup false q := by
    intro q hq
    rwa [Fs.lookup, Fs.lookup, Fs.locate_follow_noLinks hlinks' false true,
      Fs.locate_follow_noLinks hlinks false true]
  induction names generalizing dir with
  | nil => exact Iff.rfl
  | cons name names ih =>
      have hhere := hfollow _ (hsame _ (onWay_pathOf name names))
      cases names with
      | nil =>
          have hblocked : fs'.Blocked (dir ++ name) ↔ fs.Blocked (dir ++ name) := by
            have hway : ∀ q r, dir ++ name = q ++ '/' :: r →
                fs'.lookup true q = fs.lookup true q :=
              fun q r hpath => hsame q ⟨'/' :: r, hpath, Or.inr rfl⟩
            constructor
            · intro h
              obtain ⟨q, r, ino, hpath, hfile⟩ := h
              exact ⟨q, r, ino, hpath, hway q r hpath ▸ hfile⟩
            · intro h
              obtain ⟨q, r, ino, hpath, hfile⟩ := h
              exact ⟨q, r, ino, hpath, (hway q r hpath).trans hfile⟩
          rw [Walked, Walked, hhere, hblocked]
      | cons m names =>
          have hbelow := @ih (dir ++ name ++ ['/']) hsame
          exact and_congr (by rw [hhere]) hbelow

variable {umask : Nat} {s : World}

/-- From `s`, the part removes entries at such locations only and raises nothing. -/
def Removing {α : Type} (umask : Nat) (p : Py α) (P : Loc → Prop) (Q : Fs → Prop) (s : World) :
    Prop :=
  Holds (posixWhere umask Truthful) (fun _ _ => True) p
    (fun _ s' => Clears s.fs s'.fs P ∧ Q s'.fs) (fun _ _ => False) s

/-- After the attempt no regular file stands at the path. -/
theorem removeFile_removing (path : Text) :
    Removing umask (removeFile false path) (fun L => s.fs.locate false path = some L)
      (fun fs' => ∀ L, s.fs.locate false path = some L → ¬ Regular fs' L) s := by
  have hunlink : Holds (posixWhere umask Truthful) (fun _ _ => True) (attempt (unlink path))
      (fun _ s' => Clears s.fs s'.fs (fun L => s.fs.locate false path = some L) ∧
        ∀ L, s.fs.locate false path = some L → ¬ Regular s'.fs L) (fun _ _ => False) s := by
    apply holds_attempt
    refine ⟨trivial, fun r s' hM => ?_⟩
    obtain ⟨hacts, htruth⟩ := hM
    cases r with
    | ok u =>
        obtain ⟨fs', hun, heq⟩ := hacts
        subst heq
        obtain ⟨loc, hloc, _, hdir, hfs'⟩ := Fs.unlink_eq_some hun
        refine ⟨⟨Fs.unlink_shrinks hun, ?_, fun L => ?_⟩, fun L hL hregular => ?_⟩
        · rw [hfs']
          rfl
        · rw [hfs', Fs.entry_unlinked hdir]
          split
          next hL => exact Or.inr (hL ▸ hloc)
          next => exact Or.inl rfl
        · rw [hloc] at hL
          cases hL
          obtain ⟨ino, he, _⟩ := hregular
          rw [hfs', Fs.entry_unlinked hdir, if_pos rfl] at he
          cases he
    | error e =>
        have hsame : s' = s := hacts.2
        subst hsame
        refine ⟨clears_refl _, fun L hL hregular => ?_⟩
        obtain ⟨ino, he, hkind⟩ := hregular
        exact htruth ino (by rw [Fs.lookup, hL, Option.bind_some, he]) hkind
  apply holds_bind
  apply holds_mono hunlink
  · intro r s' h
    cases r with
    | ok u => exact h
    | error e => exact h
  · exact fun _ _ h => h

theorem removeFiles_removing (hlinks : s.fs.NoLinks) (files : List Text) :
    Removing umask (removeFiles false jail files)
      (fun L => ∃ file ∈ files, s.fs.locate false (jail ++ file) = some L)
      (fun fs' => ∀ file ∈ files, ∀ L, s.fs.locate false (jail ++ file) = some L →
        ¬ Regular fs' L) s := by
  induction files generalizing s with
  | nil => exact ⟨clears_refl _, fun file hfile => by cases hfile⟩
  | cons file files ih =>
      apply holds_bind
      apply holds_mono (removeFile_removing (jail ++ file))
      · intro gone s₁ ⟨hclears, hgone⟩
        apply holds_bind
        apply holds_mono (@ih s₁ (Fs.noLinks_shrinks hlinks hclears.1))
        · intro rest s₂ ⟨hclears₂, hgone₂⟩
          have hlocate : ∀ path, s₁.fs.locate false path = s.fs.locate false path :=
            fun path => Fs.locate_shrinks hlinks hclears.1 false path
          simp only [hlocate] at hclears₂ hgone₂
          refine ⟨clears_trans (clears_mono hclears ?_) (clears_mono hclears₂ ?_), ?_⟩
          · exact fun L _ hL => ⟨file, List.mem_cons_self, hL⟩
          · exact fun L _ ⟨f, hf, hL⟩ => ⟨f, List.mem_cons_of_mem file hf, hL⟩
          · intro f hf L hL
            cases List.mem_cons.mp hf with
            | inl heq =>
                rw [heq] at hL
                exact fun hregular => hgone L hL (regular_of_clears hclears₂ hregular)
            | inr hmem => exact hgone₂ f hmem L hL
        · exact fun _ _ h => h
      · exact fun _ _ h => h

/-- Whether or not the directory can be listed, the scan comes to what it should. -/
theorem scanDir_scans {E : Exn → Prop} (hlinks : fs.NoLinks) (hnested : fs.Nested) {B : Nat}
    (hB : fs.DepthBound B) {n : Nat} (hn : B + 2 ≤ n) (hdir : dir.getLast? = some '/') :
    Scans umask fs (scanDir n jail [] dir) (Spec fs jail dir (fun _ => True) ⟨[], []⟩) E := by
  have hscan := @find2update_scans umask fs jail hlinks hnested B hB n dir ⟨[], []⟩ hdir
    (by omega) (fun d _ => by omega)
  apply scans_bind (scans_attempt hscan)
  intro r hr
  cases r with
  | ok found => exact scans_pure found hr
  | error e =>
      obtain ⟨⟨errno, herr⟩, hnot⟩ := hr
      subst herr
      refine scans_pure _ ⟨sound_refl, fun _ => id, ?_⟩
      intro d name names hd _ _ hregular
      refine absurd ?_ hnot
      rw [Fs.lookup, hd, Option.bind_some,
        Fs.entry_above hnested (List.cons_ne_nil name names) (regular_isSome hregular)]

/-- One directory: what the scan comes to and nothing else may go, and no deprecated file
that it comes to stays. -/
theorem updateDir_removing (hlinks : s.fs.NoLinks) (hnested : s.fs.Nested) {B : Nat}
    (hB : s.fs.DepthBound B) {n : Nat} (hn : B + 2 ≤ n) (hdir : dir.getLast? = some '/') :
    Removing umask (updateDir n false jail [] dir)
      (fun L => ∃ names, Below s.fs jail dir names L ∧ Walked s.fs dir names)
      (fun fs' => ∀ names L, Below s.fs jail dir names L → Walked s.fs dir names →
        s.fs.lookup false (pathOf dir names) = none → ¬ Regular fs' L) s := by
  rw [updateDir, if_neg (by simp)]
  apply holds_bind
  apply holds_mono (scanDir_scans (E := fun _ => False) hlinks hnested hB hn hdir s rfl)
  · intro found s₁ hscan
    obtain ⟨hs₁, hsound, _, hcomplete⟩ := hscan
    have hreached : ∀ file ∈ found.files, ∀ L, s.fs.locate false (jail ++ file) = some L →
        ∃ names, Below s.fs jail dir names L ∧ Walked s.fs dir names := by
      intro file hfile L hL
      cases hsound file hfile with
      | inl hold => cases hold
      | inr hnew =>
          obtain ⟨names, hvalid, hwalked, hpath⟩ := hnew
          have hne : names ≠ [] := by
            intro hnil
            rw [hnil] at hwalked
            exact hwalked
          rw [hpath] at hL
          exact ⟨names, below_of_locate hlinks hdir names hvalid hne hL, hwalked⟩
    rw [← hs₁] at hlinks
    apply holds_bind
    apply holds_mono (removeFiles_removing hlinks found.files2update)
    · intro files s₂ hfiles
      have hclears := hfiles.1
      apply holds_bind
      apply holds_mono (removeFiles_removing (Fs.noLinks_shrinks hlinks hclears.1)
        found.files2clean)
      · intro cleans s₃ hcleans
        obtain ⟨hclears₃, hgone⟩ := hcleans
        have hlocate : ∀ path, s₂.fs.locate false path = s₁.fs.locate false path :=
          fun path => Fs.locate_shrinks hlinks hclears.1 false path
        simp only [hlocate] at hclears₃ hgone
        rw [hs₁] at hclears
        simp only [hs₁] at hclears hclears₃ hgone hlinks
        refine ⟨clears_trans (clears_mono hclears ?_) (clears_mono hclears₃ ?_), ?_⟩
        · intro L _ h
          obtain ⟨f, hf, hL⟩ := h
          exact hreached f (List.mem_append_left _ hf) L hL
        · intro L _ h
          obtain ⟨f, hf, hL⟩ := h
          exact hreached f (List.mem_append_right _ hf) L hL
        · intro names L hbelow hwalked hnone hregular
          have hregular₀ := regular_of_clears hclears (regular_of_clears hclears₃ hregular)
          have hL := locate_of_below hlinks hnested hdir names hbelow (regular_isSome hregular₀)
          obtain ⟨hne, hvalid, d, hd, heq⟩ := hbelow
          subst heq
          cases names with
          | nil => exact hne rfl
          | cons name names =>
              exact hgone _ (hcomplete d name names hd trivial hvalid hregular₀ hwalked hnone)
                _ hL hregular
      · exact fun _ _ h => h
    · exact fun _ _ h => h
  · exact fun _ _ h => h.2

/-- What has gone from the jail is not on the way of a path of the real system. -/
theorem same_along {dirs : List Text} (hlinks : fs.NoLinks) (hsep : Separate fs jail dirs)
    (h : Clears fs fs' (Reached fs jail dirs)) {d₀ : Text} (hdir : d₀ ∈ dirs)
    {names : List Text} {L : Loc} (hbelow : Below fs jail (scanned jail d₀) names L)
    (hsome : (fs.entry L).isSome) (q : Text) (hq : OnWay q (pathOf (scanned jail d₀) names)) :
    fs'.lookup true q = fs.lookup true q := by
  rw [Fs.lookup, Fs.lookup, Fs.locate_shrinks hlinks h.1]
  cases hX : fs.locate true q with
  | none => rfl
  | some X =>
      cases h.2.2 X with
      | inl hsame => exact hsame
      | inr hreached =>
          obtain ⟨dir', hdir', names', ⟨_, _, d, hd, heq⟩, _⟩ := hreached
          refine absurd ?_ (hsep d₀ hdir names L hbelow hsome q X hq hX dir' hdir' d hd)
          rw [heq]
          exact List.prefix_append d names'

/-- All the directories in turn. -/
theorem removeOld_removing {dirs₀ : List Text} (hlinks : fs.NoLinks) (hnested : fs.Nested)
    (hsep : Separate fs jail dirs₀) {B : Nat} (hB : fs.DepthBound B) {n : Nat} (hn : B + 2 ≤ n)
    (dirs : List Text) (hdirs : ∀ dir ∈ dirs, dir ∈ dirs₀) (s : World)
    (hs : Clears fs s.fs (Reached fs jail dirs₀)) :
    Holds (posixWhere umask Truthful) (fun _ _ => True) (removeOld n false jail [] dirs)
      (fun _ s' => Clears s.fs s'.fs (Reached fs jail dirs₀) ∧
        ∀ dir ∈ dirs, ∀ names L, Below fs jail (scanned jail dir) names L →
          Walked fs (scanned jail dir) names →
          fs.lookup false (pathOf (scanned jail dir) names) = none → ¬ Regular s'.fs L)
      (fun _ _ => False) s := by
  induction dirs generalizing s with
  | nil => exact ⟨clears_refl s.fs, fun dir hdir => by cases hdir⟩
  | cons dir dirs ih =>
      have hmem := hdirs dir List.mem_cons_self
      have hlinks' := Fs.noLinks_shrinks hlinks hs.1
      -- the paths of the real system lead where they led at the beginning
      have hwalked : ∀ names L, Below fs jail (scanned jail dir) names L →
          (fs.entry L).isSome →
          (Walked s.fs (scanned jail dir) names ↔ Walked fs (scanned jail dir) names) :=
        fun names L hbelow hsome => walked_congr hlinks hlinks' names
          fun q hq => same_along hlinks hsep hs hmem hbelow hsome q hq
      apply holds_bind
      apply holds_mono (updateDir_removing hlinks' (Fs.nested_shrinks hnested hs.1)
        (Fs.depthBound_shrinks hB hs.1) hn (scanned_slash jail dir))
      · intro _ s₁ ⟨hclears, hgone⟩
        have hclears₁ : Clears s.fs s₁.fs (Reached fs jail dirs₀) := by
          apply clears_mono hclears
          intro L hsome ⟨names, hbelow, hw⟩
          rw [below_shrinks hlinks hs.1] at hbelow
          have hsome₀ : (fs.entry L).isSome := by
            cases hs.1.2 L with
            | inl hsame => rwa [hsame] at hsome
            | inr hnone => simp [hnone.1] at hsome
          exact ⟨dir, hmem, names, hbelow, (hwalked names L hbelow hsome₀).mp hw⟩
        apply holds_bind
        apply holds_mono (ih (fun d hd => hdirs d (List.mem_cons_of_mem dir hd)) s₁
          (clears_trans hs hclears₁))
        · intro _ s₂ ⟨hclears₂, hgone₂⟩
          refine ⟨clears_trans hclears₁ hclears₂, fun d hd names L hbelow hw hnone hregular => ?_⟩
          cases List.mem_cons.mp hd with
          | inr hrest => exact hgone₂ d hrest names L hbelow hw hnone hregular
          | inl heq =>
              subst heq
              have hregular₁ := regular_of_clears hclears₂ hregular
              have hregular₀ := regular_of_clears hs (regular_of_clears hclears₁ hregular₁)
              have hsome := regular_isSome hregular₀
              have hhost := same_along hlinks hsep hs hmem hbelow hsome _ (onWay_refl _)
              rw [Fs.lookup, Fs.lookup, Fs.locate_follow_noLinks hlinks' true false,
                Fs.locate_follow_noLinks hlinks true false] at hhost
              exact hgone names L ((below_shrinks hlinks hs.1 names L).mpr hbelow)
                ((hwalked names L hbelow hsome).mpr hw) (hhost.trans hnone) hregular₁
        · exact fun _ _ h => h
      · exact fun _ _ h => h

end

section

variable {recur : Text → Found → Py Found} {jail : Text} {skips : List Text}

theorem checkFile_looks (hrecur : ∀ dir found, Prog.Only Looks (recur dir found))
    (file : Text) (found : Found) : Prog.Only Looks (checkFile recur jail file found) := by
  refine only_bind (only_attempt (only_bind ⟨trivial, fun _ => trivial⟩ fun sbuf => ?_))
    fun r => ?_
  · split
    · exact hrecur _ found
    · refine only_bind (needUpdate_looks file _ sbuf) fun ret => ?_
      split
      · exact trivial
      · split
        · exact trivial
        · exact trivial
    · exact trivial
  · split
    · exact trivial
    · split
      · exact trivial
      · exact trivial
    · exact trivial
    · exact trivial

theorem find2update_looks (n : Nat) (dir : Text) (found : Found) :
    Prog.Only Looks (find2update jail skips n dir found) := by
  induction n generalizing dir found with
  | zero => exact trivial
  | succ n ih =>
      refine only_bind ⟨trivial, fun _ => trivial⟩ fun files => ?_
      induction files generalizing found with
      | nil => exact trivial
      | cons file files ih' =>
          refine only_bind ?_ fun found' => ih' found'
          rw [scanName]
          split
          · exact trivial
          · exact checkFile_looks ih _ found

theorem removeFiles_looks (files : List Text) : Prog.Only Looks (removeFiles true jail files) := by
  induction files with
  | nil => exact trivial
  | cons file files ih => exact only_bind trivial fun gone => only_bind ih fun _ => trivial

/-- In a dry run nothing is done but looking. -/
theorem removeOld_looks (fuel : Nat) (dirs : List Text) :
    Prog.Only Looks (removeOld fuel true jail skips dirs) := by
  induction dirs with
  | nil => exact trivial
  | cons dir dirs ih =>
      have hscan : ∀ dir, Prog.Only Looks (scanDir fuel jail skips dir) := by
        intro dir
        refine only_bind (only_attempt (find2update_looks fuel dir _)) fun r => ?_
        split
        · exact trivial
        · exact trivial
        · exact trivial
        · exact trivial
      have hone : ∀ dir, Prog.Only Looks (updateDir fuel true jail skips dir) := by
        intro dir
        rw [updateDir]
        split
        · exact trivial
        · refine only_bind (hscan dir) fun found => ?_
          refine only_bind (removeFiles_looks found.files2update) fun files => ?_
          exact only_bind (removeFiles_looks found.files2clean) fun _ => trivial
      exact only_bind (hone _) fun _ => only_bind ih fun _ => trivial

end

def isFile : Option Entry → Bool
  | some (.file _) => true
  | _ => false

instance (fs : Fs) (path : Text) : Decidable (fs.Blocked path) :=
  decidable_of_iff (∃ q ∈ path.inits, (path.drop q.length).head? = some '/' ∧
      isFile (fs.lookup true q) = true) (by
    constructor
    · intro ⟨q, hq, hslash, hfile⟩
      obtain ⟨rest, hrest⟩ := (List.mem_inits q path).mp hq
      subst hrest
      rw [List.drop_left] at hslash
      obtain ⟨r, hr⟩ := List.head?_eq_some_iff.mp hslash
      cases he : fs.lookup true q with
      | none => simp [he, isFile] at hfile
      | some e =>
          cases e with
          | file ino => exact ⟨q, r, ino, by rw [hr], he⟩
          | dir | symlink t => simp [he, isFile] at hfile
    · intro ⟨q, r, ino, hpath, hfile⟩
      refine ⟨q, (List.mem_inits q path).mpr ⟨'/' :: r, hpath.symm⟩, ?_, by rw [hfile]; rfl⟩
      rw [hpath, List.drop_left]
      rfl)

/-- The answers of a run in which nothing fails but for what stands in the trees. -/
def executeTruthful (umask : Nat) (s : World) : (c : Call) → Res c × World
  | .lstatSize path =>
      (if statPath s.fs false path = none ∧ s.fs.Blocked path then .error (.osError 20)
        else foundSized s.fs path, s)
  | c => execute umask s c

theorem posixWhere_executeTruthful (umask : Nat) (s : World) (c : Call) :
    posixWhere umask Truthful s c (executeTruthful umask s c).1 (executeTruthful umask s c).2 := by
  cases c with
  | lstatSize path =>
      simp only [executeTruthful]
      split
      next h =>
        refine ⟨⟨⟨20, rfl, fun h20 => by cases h20⟩, rfl⟩, h.1, fun h20 => ?_, fun hnot => ?_⟩
        · cases h20
        · exact absurd h.2 hnot
      next h =>
        refine ⟨⟨findsSized_foundSized _ _, rfl⟩, ?_⟩
        rw [foundSized]
        cases hstat : statPath s.fs false path with
        | some buf => exact trivial
        | none => exact ⟨hstat, ⟨fun _ hblocked => h ⟨hstat, hblocked⟩, fun _ => rfl⟩⟩
  | listdir path =>
      refine ⟨posix_execute umask s (.listdir path), ?_⟩
      simp only [executeTruthful, execute, listNames]
      split
      next loc hloc =>
        split
        · exact trivial
        next hdir =>
          simp only [Truthful, Fs.lookup, hloc, Option.bind_some]
          exact hdir
      next hloc =>
        simp only [Truthful, Fs.lookup, hloc]
        exact fun h => by cases h
  | unlink path =>
      refine ⟨posix_execute umask s (.unlink path), ?_⟩
      simp only [executeTruthful, execute]
      cases hun : s.fs.unlink path with
      | some fs' => exact trivial
      | none =>
          intro ino hfile
          obtain ⟨loc, hloc, he⟩ := Option.bind_eq_some_iff.mp hfile
          simp [Fs.unlink, hloc, he] at hun
  | _ => exact ⟨posix_execute umask s _, trivial⟩

/-- What is deprecated after the removals was so before. -/
theorem deprecated_of_clears {fs fs' : Fs} {jail : Text} {dirs : List Text} {L : Loc}
    (hlinks : fs.NoLinks) (hsep : Separate fs jail dirs)
    (h : Clears fs fs' (Reached fs jail dirs)) (hd : Deprecated fs' jail dirs L) :
    Deprecated fs jail dirs L := by
  obtain ⟨hregular, ⟨dir, hdir, names, hbelow⟩, hnone⟩ := hd
  have hregular₀ := regular_of_clears h hregular
  refine ⟨hregular₀, ⟨dir, hdir, names, (below_shrinks hlinks h.1 names L).mp hbelow⟩, ?_⟩
  intro d hd names hbelow
  have hhost := same_along hlinks hsep h hd hbelow (regular_isSome hregular₀) _ (onWay_refl _)
  rw [Fs.lookup, Fs.lookup, Fs.locate_follow_noLinks (Fs.noLinks_shrinks hlinks h.1) true false,
    Fs.locate_follow_noLinks hlinks true false] at hhost
  exact hhost.symm.trans (hnone d hd names ((below_shrinks hlinks h.1 names L).mpr hbelow))

/-- A dry run changes nothing. After a run of the deletion phase no deprecated file is left,
if the scan comes to all of them, and only then. -/
theorem removeOld_cleans_iff (umask : Nat) (jail : Text) (dirs : List Text) (s : World)
    (hlinks : s.fs.NoLinks) (hnested : s.fs.Nested) (hsep : Separate s.fs jail dirs) :
    (∀ fuel hardlink r s', Prog.Returns (posix umask)
        (updatejail fuel true hardlink jail [] dirs) s r s' → s'.fs = s.fs) ∧
    ((∃ n, ∀ fuel, n ≤ fuel → ∀ r s', Prog.Returns (posixWhere umask Truthful)
        (removeOld fuel false jail [] dirs) s r s' →
          (∃ allfiles, r = .ok allfiles) ∧ ∀ L, ¬ Deprecated s'.fs jail dirs L) ↔
      ∀ L, Deprecated s.fs jail dirs L → Reached s.fs jail dirs L) := by
  obtain ⟨B, hB⟩ := s.fs.exists_depthBound
  have hrun : ∀ fuel, B + 2 ≤ fuel → ∀ r s', Prog.Returns (posixWhere umask Truthful)
      (removeOld fuel false jail [] dirs) s r s' → (∃ allfiles, r = .ok allfiles) ∧
        Clears s.fs s'.fs (Reached s.fs jail dirs) ∧
        ∀ dir ∈ dirs, ∀ names L, Below s.fs jail (scanned jail dir) names L →
          Walked s.fs (scanned jail dir) names →
          s.fs.lookup false (pathOf (scanned jail dir) names) = none → ¬ Regular s'.fs L := by
    intro fuel hfuel r s' hr
    have hends := Prog.result_of_returns (removeOld_removing hlinks hnested hsep hB hfuel dirs
      (fun _ hdir => hdir) s (clears_refl s.fs)) hr
    cases r with
    | ok allfiles => exact ⟨⟨allfiles, rfl⟩, hends⟩
    | error e => exact hends.elim
  refine ⟨?_, ?_, ?_⟩
  · intro fuel hardlink r s' hr
    have hlooks : Prog.Only Looks (updatejail fuel true hardlink jail [] dirs) :=
      only_bind (removeOld_looks fuel dirs) fun _ => trivial
    have hkeeps : ∀ s₁ c r s₂, Looks c → s₁.fs = s.fs → posix umask s₁ c r s₂ → s₂.fs = s.fs :=
      fun _ _ _ _ hc hfs hM => (posix_looks hc hM).trans hfs
    exact Prog.result_of_returns (Q := fun _ s' => s'.fs = s.fs) (Prog.always_of_only
      (G := fun _ _ => True) hlooks hkeeps (fun _ _ _ _ => trivial) rfl) hr
  · intro ⟨n, hn⟩ L hdeprecated
    obtain ⟨r, s', hr⟩ := Prog.exists_returns
      (fun s c => ⟨_, _, posixWhere_executeTruthful umask s c⟩)
      (removeOld (max n (B + 2)) false jail [] dirs) s
    obtain ⟨_, hclears, _⟩ := hrun _ (Nat.le_max_right n (B + 2)) r s' hr
    cases hclears.2.2 L with
    | inr hreached => exact hreached
    | inl hsame =>
        refine absurd ?_ ((hn _ (Nat.le_max_left n (B + 2)) r s' hr).2 L)
        obtain ⟨⟨ino, he, hkind⟩, ⟨dir, hdir, names, hbelow⟩, hnone⟩ := hdeprecated
        refine ⟨⟨ino, hsame.trans he, by rw [hclears.2.1, hkind]⟩,
          ⟨dir, hdir, names, (below_shrinks hlinks hclears.1 names L).mpr hbelow⟩, ?_⟩
        intro d hd names hbelow
        have hnone := hnone d hd names ((below_shrinks hlinks hclears.1 names L).mp hbelow)
        cases Fs.lookup_shrinks hlinks hclears.1 false (pathOf (scanned jail d) names) with
        | inl hlookup => exact hlookup.trans hnone
        | inr hgone => exact hgone.1
  · intro hall
    refine ⟨B + 2, fun fuel hfuel r s' hr => ?_⟩
    obtain ⟨hok, hclears, hgone⟩ := hrun fuel hfuel r s' hr
    refine ⟨hok, fun L hd => ?_⟩
    have hd₀ := deprecated_of_clears hlinks hsep hclears hd
    obtain ⟨dir, hdir, names, hbelow, hwalked⟩ := hall L hd₀
    exact hgone dir hdir names L hbelow hwalked (hd₀.2.2 dir hdir names hbelow) hd.1

theorem mem_nodes_of_below {fs : Fs} {jail dir : Text} {names : List Text} {L : Loc}
    (h : Below fs jail dir names L) (hsome : (fs.entry L).isSome) :
    ∃ y ∈ fs.nodes, y.1 = L := by
  obtain ⟨hne, _, d, _, heq⟩ := h
  have hroot : L ≠ [] := by simp [heq, hne]
  rwa [Fs.entry, if_neg hroot, Fs.lookup_isSome_iff] at hsome

theorem separate_of_nodes {fs : Fs} {jail dir : Text} {d : Loc}
    (hd : fs.locate true (jail ++ scanned jail dir) = some d)
    (h : ∀ y ∈ fs.nodes, d <+: y.1 →
      ∀ q ∈ (pathOf (scanned jail dir) (y.1.drop d.length)).inits,
        ∀ X ∈ fs.locate true q, ¬ d <+: X) : Separate fs jail [dir] := by
  intro dir₁ hdir₁ names L hbelow hsome q X ⟨r, hr, _⟩ hX dir₂ hdir₂ d₂ hd₂
  rw [List.mem_singleton] at hdir₁ hdir₂
  subst hdir₁ hdir₂
  rw [hd] at hd₂
  cases hd₂
  obtain ⟨y, hy, hyL⟩ := mem_nodes_of_below hbelow hsome
  obtain ⟨_, _, d₁, hd₁, heq⟩ := hbelow
  rw [hd] at hd₁
  cases hd₁
  refine h y hy (by rw [hyL, heq]; exact List.prefix_append d names) q ?_ X hX
  rw [hyL, heq, List.drop_left, List.mem_inits, hr]
  exact List.prefix_append q r

instance decidableWalked (fs : Fs) : ∀ dir names, Decidable (Walked fs dir names)
  | _, [] => inferInstanceAs (Decidable False)
  | dir, [name] => inferInstanceAs (Decidable
      (fs.lookup false (dir ++ name) = none → ¬ fs.Blocked (dir ++ name)))
  | dir, name :: name' :: names =>
      have := decidableWalked fs (dir ++ name ++ ['/']) (name' :: names)
      inferInstanceAs (Decidable (fs.lookup false (dir ++ name) = some .dir ∧
        Walked fs (dir ++ name ++ ['/']) (name' :: names)))

theorem reached_of_nodes {fs : Fs} {jail dir : Text} {d : Loc}
    (hd : fs.locate true (jail ++ scanned jail dir) = some d)
    (h : ∀ y ∈ fs.nodes, d <+: y.1 → fs.entry y.1 ≠ some .dir →
      Walked fs (scanned jail dir) (y.1.drop d.length)) {L : Loc}
    (hdeprecated : Deprecated fs jail [dir] L) : Reached fs jail [dir] L := by
  obtain ⟨hregular, ⟨dir, hdir, names, hbelow⟩, _⟩ := hdeprecated
  rw [List.mem_singleton] at hdir
  subst hdir
  refine ⟨dir, List.mem_cons_self, names, hbelow, ?_⟩
  obtain ⟨y, hy, rfl⟩ := mem_nodes_of_below hbelow (regular_isSome hregular)
  obtain ⟨_, _, d', hd', heq⟩ := hbelow
  rw [hd] at hd'
  cases hd'
  have hwalked := h y hy (by rw [heq]; exact List.prefix_append d names) ?_
  · rwa [heq, List.drop_left] at hwalked
  · obtain ⟨ino, hentry, _⟩ := hregular
    rw [hentry]
    nofun

def staleUsr (nodes : List (Loc × Entry)) : World :=
  worldOf 0o644 (nodes ++ dirsAt [["usr".toList], ["jail".toList], ["jail".toList, "usr".toList]])

/-- Two old files, one of them in a directory that the real system has as well, beside a file
that it still has. -/
def filesInUsr : World :=
  staleUsr [(["jail".toList, "usr".toList, "f".toList], .file 0),
    (["jail".toList, "usr".toList, "bin".toList, "g".toList], .file 1),
    (["jail".toList, "usr".toList, "bin".toList, "kept".toList], .file 2),
    (["jail".toList, "usr".toList, "bin".toList], .dir), (["usr".toList, "bin".toList], .dir),
    (["usr".toList, "bin".toList, "kept".toList], .file 3)]

theorem removeOld_cleans_iff_filesInUsr :
    Deprecated filesInUsr.fs "/jail".toList ["/usr".toList]
        ["jail".toList, "usr".toList, "bin".toList, "g".toList] ∧
    ∃ n, ∀ fuel, n ≤ fuel → ∀ r s', Prog.Returns (posixWhere 0o022 Truthful)
        (removeOld fuel false "/jail".toList [] ["/usr".toList]) filesInUsr r s' →
      (∃ allfiles, r = .ok allfiles) ∧
        ∀ L, ¬ Deprecated s'.fs "/jail".toList ["/usr".toList] L := by
  have hd : filesInUsr.fs.locate true ("/jail".toList ++ scanned "/jail".toList "/usr".toList) =
      some ["jail".toList, "usr".toList] := by decide +kernel
  constructor
  · refine ⟨⟨1, by decide +kernel, rfl⟩, ?_, ?_⟩
    · exact ⟨_, List.mem_cons_self, ["bin".toList, "g".toList], by simp, by decide +kernel, _,
        hd, rfl⟩
    · intro dir hdir names ⟨_, _, d, hd', heq⟩
      rw [List.mem_singleton] at hdir
      subst hdir
      rw [hd] at hd'
      cases hd'
      simp only [List.cons_append, List.nil_append, List.cons.injEq, true_and] at heq
      rw [← heq]
      decide +kernel
  · refine (removeOld_cleans_iff 0o022 "/jail".toList ["/usr".toList] filesInUsr
      (Fs.noLinks_of_nodes (by decide +kernel)) (Fs.nested_of_nodes (by decide +kernel))
      (separate_of_nodes hd (by decide +kernel))).2.mpr ?_
    exact fun L => reached_of_nodes hd (by decide +kernel)

/-- The jail has a directory that the real system has no longer. -/
def oldInUsr : World :=
  staleUsr [(["jail".toList, "usr".toList, "old".toList], .dir),
    (["jail".toList, "usr".toList, "old".toList, "f".toList], .file 0)]

/-- It is not searched, and cannot be removed. -/
theorem removeOld_leaves_oldInUsr :
    oldInUsr.fs.NoLinks ∧ oldInUsr.fs.Nested ∧
      Separate oldInUsr.fs "/jail".toList ["/usr".toList] ∧
      ∃ allfiles s', Prog.Returns (posixWhere 0o022 Truthful)
        (removeOld 9 false "/jail".toList [] ["/usr".toList]) oldInUsr (.ok allfiles) s' ∧
        Deprecated s'.fs "/jail".toList ["/usr".toList]
          ["jail".toList, "usr".toList, "old".toList, "f".toList] := by
  have hd : oldInUsr.fs.locate true ("/jail".toList ++ scanned "/jail".toList "/usr".toList) =
      some ["jail".toList, "usr".toList] := by decide +kernel
  have hrun : ((removeOld 9 false "/jail".toList [] ["/usr".toList]).finish
      (fun s c => some (executeTruthful 0o022 s c)) oldInUsr).any (fun end_ =>
        end_.1.toBool && (decide (end_.2.fs.locate true
          ("/jail".toList ++ scanned "/jail".toList "/usr".toList) =
            some ["jail".toList, "usr".toList]) &&
        (decide (end_.2.fs.entry ["jail".toList, "usr".toList, "old".toList, "f".toList] =
          some (.file 0)) &&
        (decide ((end_.2.fs.inode 0).kind = .reg) &&
          decide (end_.2.fs.lookup false "/usr/old/f".toList = none))))) = true := by
    decide +kernel
  have hstep : ∀ s c (r : Res c) s', some (executeTruthful 0o022 s c) = some (r, s') →
      posixWhere 0o022 Truthful s c r s' := by
    intro s c r s' h
    have hposix := posixWhere_executeTruthful 0o022 s c
    rwa [Option.some.inj h] at hposix
  obtain ⟨r, s', hr, hcheck⟩ := Prog.returns_of_any hstep hrun
  simp only [Bool.and_eq_true, decide_eq_true_eq] at hcheck
  obtain ⟨hok, hd', he, hkind, hnone⟩ := hcheck
  obtain ⟨allfiles, hr⟩ : ∃ allfiles, Prog.Returns (posixWhere 0o022 Truthful)
      (removeOld 9 false "/jail".toList [] ["/usr".toList]) oldInUsr (.ok allfiles) s' := by
    cases r with
    | ok allfiles => exact ⟨allfiles, hr⟩
    | error e => cases hok
  refine ⟨Fs.noLinks_of_nodes (by decide +kernel), Fs.nested_of_nodes (by decide +kernel),
    separate_of_nodes hd (by decide +kernel), allfiles, s', hr, ⟨0, he, hkind⟩, ?_, ?_⟩
  · refine ⟨"/usr".toList, List.mem_cons_self, ["old".toList, "f".toList], by simp, ?_, _, hd', rfl⟩
    decide +kernel
  · intro dir hdir names ⟨_, _, d, hd, heq⟩
    rw [List.mem_singleton] at hdir
    subst hdir
    rw [hd'] at hd
    cases hd
    simp only [List.cons_append, List.nil_append, List.cons.injEq, true_and] at heq
    rw [← heq]
    exact hnone

end Jailkit.Update
