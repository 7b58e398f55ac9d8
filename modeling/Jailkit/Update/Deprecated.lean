import Jailkit.Lib.Trees
import Jailkit.Tools.Execute
import Jailkit.Tools.Unforced
import Jailkit.Update.Scan

/-!
Which of the files that the real system does not have are gone from the jail after
jk_update.
-/
namespace Jailkit.Update

open JkLib Raising Tools
open Fs (ValidName Shrinks NoLinks Blocked pathOf)

/-- Nothing fails but for what stands in the trees: a directory can be listed, `lstat` finds
what is there, and the `unlink` of a regular file succeeds. -/
def Truthful (s : World) (c : Call) (r : Res c) : Prop :=
  match c, r with
  | .listdir path, .error _ => s.fs.lookup true path ≠ some .dir
  | .lstatSize path, .error e =>
      statPath s.fs false path = none ∧ (e = .osError ENOENT ↔ ¬ s.fs.Blocked path)
  | .unlink path, .error _ =>
      ∀ ino, s.fs.lookup false path = some (.file ino) → (s.fs.inode ino).kind ≠ .reg
  | _, _ => True

def Regular (fs : Fs) (L : Loc) : Prop :=
  ∃ ino, fs.entry L = some (.file ino) ∧ (fs.inode ino).kind = .reg

/-- The scan of `dir` comes to these names: all but the last are directories on the real
system, and the last does not stand below a file there. -/
def Walked (fs : Fs) (dir : Text) : List Text → Prop
  | [] => False
  | [name] => fs.lookup false (dir ++ name) = none → ¬ fs.Blocked (dir ++ name)
  | name :: name' :: names =>
      fs.lookup false (dir ++ name) = some .dir ∧
        Walked fs (dir ++ name ++ ['/']) (name' :: names)

def Found.files (found : Found) : List Text := found.files2update ++ found.files2clean

/-- What the scan finds it has come to. -/
def Sound (fs : Fs) (dir : Text) (found found' : Found) : Prop :=
  ∀ file ∈ found'.files, file ∈ found.files ∨
    ∃ names, (∀ name ∈ names, ValidName name) ∧ Walked fs dir names ∧ file = pathOf dir names

/-- The deprecated files that the scan comes to are found, those below the names `heads`. -/
def Complete (fs : Fs) (jail dir : Text) (heads : Text → Prop) (found' : Found) : Prop :=
  ∀ d name names, fs.locate true (jail ++ dir) = some d → heads name →
    (∀ n ∈ name :: names, ValidName n) → Regular fs (d ++ name :: names) →
    Walked fs dir (name :: names) → fs.lookup false (pathOf dir (name :: names)) = none →
    pathOf dir (name :: names) ∈ found'.files2clean

structure Spec (fs : Fs) (jail dir : Text) (heads : Text → Prop) (found found' : Found) :
    Prop where
  sound : Sound fs dir found found'
  keeps : ∀ file ∈ found.files2clean, file ∈ found'.files2clean
  complete : Complete fs jail dir heads found'

section

variable {α β : Type} {umask : Nat} {fs : Fs} {jail : Text}

/-- A part of the scan: it leaves the file system as it is. -/
def Scans (umask : Nat) (fs : Fs) (p : Py α) (Q : α → Prop) (E : Exn → Prop) : Prop :=
  ∀ s, s.fs = fs → Holds (posixWhere umask Truthful) (fun _ _ => True) p
    (fun a s' => s'.fs = fs ∧ Q a) (fun e s' => s'.fs = fs ∧ E e) s

theorem scans_pure {Q : α → Prop} {E : Exn → Prop} (a : α) (h : Q a) :
    Scans umask fs (pure a) Q E := fun _ hs => ⟨hs, h⟩

theorem scans_mono {p : Py α} {Q Q' : α → Prop} {E E' : Exn → Prop} (h : Scans umask fs p Q E)
    (hQ : ∀ a, Q a → Q' a) (hE : ∀ e, E e → E' e) : Scans umask fs p Q' E' := by
  intro s hs
  apply holds_mono (h s hs)
  · exact fun a s' ha => ⟨ha.1, hQ a ha.2⟩
  · exact fun e s' he => ⟨he.1, hE e he.2⟩

theorem scans_bind {p : Py α} {f : α → Py β} {Q : α → Prop} {Q' : β → Prop} {E : Exn → Prop}
    (hp : Scans umask fs p Q E) (hf : ∀ a, Q a → Scans umask fs (f a) Q' E) :
    Scans umask fs (p >>= f) Q' E := by
  intro s hs
  apply holds_bind
  apply holds_mono (hp s hs)
  · exact fun a s' ha => hf a ha.2 s' ha.1
  · exact fun e s' he => he

def orRaised (Q : α → Prop) (E : Exn → Prop) : Except Exn α → Prop
  | .ok a => Q a
  | .error e => E e

theorem scans_attempt {p : Py α} {Q : α → Prop} {E E' : Exn → Prop}
    (hp : Scans umask fs p Q E) : Scans umask fs (attempt p) (orRaised Q E) E' := by
  intro s hs
  apply holds_attempt
  apply holds_mono (hp s hs)
  · exact fun a s' ha => ha
  · exact fun e s' he => he

theorem scans_listdir (path : Text) :
    Scans umask fs (listdir path)
      (fun names => ∃ loc, fs.locate true path = some loc ∧ fs.entry loc = some .dir ∧
        fs.Lists loc names)
      (fun e => IsOsError e ∧ fs.lookup true path ≠ some .dir) := by
  intro s hs
  refine ⟨trivial, fun r s' hM => ?_⟩
  obtain ⟨⟨hlists, heq⟩, htruth⟩ := hM
  subst hs heq
  cases r with
  | ok names => exact ⟨rfl, hlists⟩
  | error e => exact ⟨rfl, hlists, htruth⟩

theorem scans_lstatSize (path : Text) :
    Scans umask fs (lstatSize path)
      (fun st => ∃ buf, statPath fs false path = some buf ∧ st.buf.format = buf.format)
      (fun e => IsOsError e ∧ statPath fs false path = none ∧
        (e = .osError ENOENT ↔ ¬ fs.Blocked path)) := by
  intro s hs
  refine ⟨trivial, fun r s' hM => ?_⟩
  obtain ⟨⟨hfinds, heq⟩, htruth⟩ := hM
  subst hs heq
  cases r with
  | ok st =>
      obtain ⟨buf, hbuf, hformat, _⟩ := hfinds
      exact ⟨rfl, buf, hbuf, hformat⟩
  | error e =>
      obtain ⟨errno, herr, _⟩ := hfinds
      exact ⟨rfl, ⟨errno, herr⟩, htruth⟩

theorem scans_readlink (use : Use) (path : Text) :
    Scans umask fs (readlink use path) (fun _ => True) IsOsError := by
  intro s hs
  refine ⟨trivial, fun r s' hM => ?_⟩
  obtain ⟨⟨hreads, heq⟩, _⟩ := hM
  subst hs heq
  cases r with
  | ok target => exact ⟨rfl, trivial⟩
  | error e => exact ⟨rfl, hreads⟩

theorem scans_openRead (path : Text) :
    Scans umask fs (openRead path) (fun _ => True) IsOsError := by
  intro s hs
  refine ⟨trivial, fun r s' hM => ?_⟩
  obtain ⟨⟨hopens, heq⟩, _⟩ := hM
  subst hs heq
  cases r with
  | ok content => exact ⟨rfl, trivial⟩
  | error e => exact ⟨rfl, hopens⟩

theorem compareContent_scans {E : Exn → Prop} (fileA fileB : Text) :
    Scans umask fs (compareContent fileA fileB) (fun _ => True) E := by
  have hread : Scans umask fs (do
      let fA ← openRead fileA
      let fB ← openRead fileB
      pure (compareBlocks (fA.length + 1) fA fB)) (fun _ => True) IsOsError := by
    apply scans_bind (scans_openRead fileA)
    intro fA _
    apply scans_bind (scans_openRead fileB)
    intro fB _
    exact scans_pure _ trivial
  apply scans_bind (scans_attempt hread)
  intro r hr
  cases r with
  | ok same => exact scans_pure same trivial
  | error e =>
      obtain ⟨errno, herr⟩ := hr
      subst herr
      exact scans_pure false trivial

theorem compareMetadata_scans (fileA fileB : Text) (sbA : SizedStat) :
    Scans umask fs (compareMetadata fileA fileB sbA) (fun _ => True) IsOsError := by
  apply scans_bind (scans_mono (scans_lstatSize fileB) (fun _ _ => trivial) fun _ h => h.1)
  intro sbB _
  split
  · split
    · exact scans_pure _ trivial
    · split
      · exact scans_pure _ trivial
      · split
        · apply scans_bind (scans_readlink .source fileA)
          intro targetA _
          apply scans_bind (scans_readlink .dest fileB)
          intro targetB _
          exact scans_pure _ trivial
        · exact scans_pure _ trivial
  · exact scans_pure _ trivial

theorem needUpdate_scans {E : Exn → Prop} (original injail : Text) (origstatbuf : SizedStat) :
    Scans umask fs (needUpdate original injail origstatbuf) (fun _ => True) E := by
  have hcompare : Scans umask fs (do
      if ← compareMetadata original injail origstatbuf then do
        if ← compareContent original injail then pure 0 else pure 1
      else pure 1 : Py Nat) (fun _ => True) IsOsError := by
    apply scans_bind (compareMetadata_scans original injail origstatbuf)
    intro same _
    split
    · apply scans_bind (compareContent_scans original injail)
      intro same _
      split
      · exact scans_pure _ trivial
      · exact scans_pure _ trivial
    · exact scans_pure _ trivial
  apply scans_bind (scans_attempt hcompare)
  intro r hr
  cases r with
  | ok ret => exact scans_pure ret trivial
  | error e =>
      obtain ⟨errno, herr⟩ := hr
      subst herr
      simp only
      split
      · exact scans_pure _ trivial
      · exact scans_pure _ trivial

theorem statPath_eq_none_iff {fs : Fs} {path : Text} :
    statPath fs false path = none ↔ fs.lookup false path = none := by
  rw [statPath, Fs.lookup]
  cases fs.locate false path with
  | none => simp
  | some l =>
      rw [Option.bind_some, Option.bind_some, statOf]
      cases fs.entry l with
      | none => simp
      | some e =>
          cases e with
          | dir | file ino | symlink t => simp

theorem statPath_dir_iff {fs : Fs} {path : Text} {buf : StatBuf}
    (h : statPath fs false path = some buf) :
    buf.format = .dir ↔ fs.lookup false path = some .dir := by
  rw [statPath] at h
  rw [Fs.lookup]
  cases hl : fs.locate false path with
  | none => simp [hl] at h
  | some l =>
      rw [hl, Option.bind_some, statOf] at h
      rw [Option.bind_some]
      cases he : fs.entry l with
      | none => simp [he] at h
      | some e =>
          cases e with
          | dir =>
              simp only [he, Option.some.injEq] at h
              simp [← h]
          | symlink t =>
              simp only [he, Option.some.injEq] at h
              simp [← h]
          | file ino =>
              simp only [he, Option.some.injEq] at h
              rw [← h]
              cases (fs.inode ino).kind with
              | reg | chr | blk | other => simp [Format.ofKind]

/-- The handler adds the file that is missing. -/
theorem exceptMissing_scans {p : Py Found} {found : Found} {file : Text} {Q : Found → Prop}
    {E : Exn → Prop}
    (hp : Scans umask fs p Q fun e => ∃ errno, e = .osError errno ∧
      Q (if errno = ENOENT then found.clean file else found)) :
    Scans umask fs (exceptMissing p found file) Q E := by
  apply scans_bind (scans_attempt hp)
  intro r hr
  cases r with
  | ok found' => exact scans_pure found' hr
  | error e =>
      obtain ⟨errno, herr, hQ⟩ := hr
      subst herr
      simp only
      split
      next h => exact scans_pure _ (by rwa [if_pos h] at hQ)
      next h => exact scans_pure _ (by rwa [if_neg h] at hQ)

theorem files_update (found : Found) (file f : Text) :
    f ∈ (found.update file).files ↔ f ∈ found.files ∨ f = file := by
  simp only [Found.files, Found.update, List.mem_append, List.mem_singleton]
  tauto

theorem files_clean (found : Found) (file f : Text) :
    f ∈ (found.clean file).files ↔ f ∈ found.files ∨ f = file := by
  simp only [Found.files, Found.clean, List.mem_append, List.mem_singleton]
  tauto

variable {dir name : Text} {found found' : Found}

theorem regular_isSome {L : Loc} (h : Regular fs L) : (fs.entry L).isSome := by
  obtain ⟨ino, he, _⟩ := h
  rw [he]
  rfl

/-- A name that is there but no directory has nothing deprecated below it. -/
theorem complete_other (hsome : fs.lookup false (dir ++ name) ≠ none)
    (hdir : fs.lookup false (dir ++ name) ≠ some .dir) :
    Complete fs jail dir (· = name) found' := by
  intro d n names _ hn _ _ hwalked hnone
  subst hn
  cases names with
  | nil => exact absurd hnone hsome
  | cons m names => exact absurd hwalked.1 hdir

theorem sound_add {added : Found} (hname : ValidName name) (hwalked : Walked fs dir [name])
    (h : ∀ f, f ∈ added.files ↔ f ∈ found.files ∨ f = dir ++ name) :
    Sound fs dir found added := by
  intro f hf
  cases (h f).mp hf with
  | inl hold => exact Or.inl hold
  | inr hnew =>
      refine Or.inr ⟨[name], fun n hn => ?_, hwalked, hnew⟩
      rw [List.mem_singleton.mp hn]
      exact hname

theorem sound_refl : Sound fs dir found found := fun _ => Or.inl

/-- Whatever is done with a name that is there and no directory, the scan meets its purpose. -/
theorem spec_other (hname : ValidName name) (hsome : fs.lookup false (dir ++ name) ≠ none)
    (hdir : fs.lookup false (dir ++ name) ≠ some .dir) :
    Spec fs jail dir (· = name) found found ∧
      Spec fs jail dir (· = name) found (found.update (dir ++ name)) ∧
      Spec fs jail dir (· = name) found (found.clean (dir ++ name)) := by
  have hwalked : Walked fs dir [name] := fun hnone => absurd hnone hsome
  refine ⟨⟨sound_refl, fun _ => id, complete_other hsome hdir⟩, ⟨?_, fun _ => id, ?_⟩, ⟨?_, ?_, ?_⟩⟩
  · exact sound_add hname hwalked (files_update found _)
  · exact complete_other hsome hdir
  · exact sound_add hname hwalked (files_clean found _)
  · exact fun f hf => List.mem_append_left _ hf
  · exact complete_other hsome hdir

/-- A name that is missing is deprecated, unless a file is in the way. -/
theorem spec_missing (hname : ValidName name) (hnone : fs.lookup false (dir ++ name) = none) :
    (fs.Blocked (dir ++ name) → Spec fs jail dir (· = name) found found) ∧
      (¬ fs.Blocked (dir ++ name) →
        Spec fs jail dir (· = name) found (found.clean (dir ++ name))) := by
  have hnames : ∀ {m : Text} {names : List Text}, ¬ Walked fs dir (name :: m :: names) := by
    intro m names hwalked
    have hdir := hwalked.1
    rw [hnone] at hdir
    cases hdir
  constructor
  · intro hblocked
    refine ⟨sound_refl, fun _ => id, ?_⟩
    intro d n names _ hn _ _ hwalked _
    subst hn
    cases names with
    | nil => exact absurd hblocked (hwalked hnone)
    | cons m names => exact absurd hwalked hnames
  · intro hblocked
    refine ⟨sound_add hname (fun _ => hblocked) (files_clean found _),
      fun f hf => List.mem_append_left _ hf, ?_⟩
    intro d n names _ hn _ _ hwalked _
    subst hn
    cases names with
    | nil => exact List.mem_append_right _ (List.mem_singleton.mpr rfl)
    | cons m names => exact absurd hwalked hnames

theorem getLast_append (t : Text) {dir : Text} (hdir : dir.getLast? = some '/') :
    (t ++ dir).getLast? = some '/' := by
  rw [List.getLast?_append, hdir]
  rfl

/-- Where the directory with that name in the jail is. -/
theorem locate_child_dir (hlinks : fs.NoLinks) (hdir : dir.getLast? = some '/')
    (hname : ValidName name) (l : Loc) :
    fs.locate true (jail ++ (dir ++ name ++ ['/'])) = some l ↔
      ∃ d, fs.locate true (jail ++ dir) = some d ∧ l = d ++ [name] ∧ fs.entry l = some .dir := by
  have htext : jail ++ (dir ++ name ++ ['/']) = jail ++ dir ++ name ++ ['/'] := by simp
  rw [htext, Fs.locate_subdir hlinks (getLast_append jail hdir) hname]

/-- What the scan of the directory below finds belongs to the scan of this one. -/
theorem spec_below (hlinks : fs.NoLinks) (hnested : fs.Nested) (hdir : dir.getLast? = some '/')
    (hname : ValidName name) (hhost : fs.lookup false (dir ++ name) = some .dir)
    (h : Spec fs jail (dir ++ name ++ ['/']) (fun _ => True) found found') :
    Spec fs jail dir (· = name) found found' := by
  refine ⟨fun f hf => ?_, h.keeps, ?_⟩
  · cases h.sound f hf with
    | inl hold => exact Or.inl hold
    | inr hnew =>
        obtain ⟨names, hvalid, hwalked, hpath⟩ := hnew
        cases names with
        | nil => exact hwalked.elim
        | cons m names =>
            refine Or.inr ⟨name :: m :: names, fun n hn => ?_, ⟨hhost, hwalked⟩, hpath⟩
            cases List.mem_cons.mp hn with
            | inl heq => rwa [heq]
            | inr hmem => exact hvalid n hmem
  · intro d n names hd hn hvalid hregular hwalked hnone
    subst hn
    cases names with
    | nil =>
        rw [pathOf, hhost] at hnone
        cases hnone
    | cons m names =>
        have hsome := regular_isSome hregular
        rw [List.append_cons] at hsome hregular
        have hd' := Fs.entry_above hnested (List.cons_ne_nil m names) hsome
        exact h.complete (d ++ [n]) m names
          ((locate_child_dir hlinks hdir hname _).mpr ⟨d, hd, rfl, hd'⟩) trivial
          (fun x hx => hvalid x (List.mem_cons_of_mem n hx)) hregular hwalked.2 hnone

/-- A directory of the real system that is none in the jail has nothing below it there. -/
theorem spec_unlisted (hlinks : fs.NoLinks) (hnested : fs.Nested)
    (hdir : dir.getLast? = some '/') (hname : ValidName name)
    (hhost : fs.lookup false (dir ++ name) = some .dir)
    (hnot : fs.lookup true (jail ++ (dir ++ name ++ ['/'])) ≠ some .dir) :
    Complete fs jail dir (· = name) found' := by
  intro d n names hd hn _ hregular _ hnone
  subst hn
  cases names with
  | nil =>
      rw [pathOf, hhost] at hnone
      cases hnone
  | cons m names =>
      have hsome := regular_isSome hregular
      rw [List.append_cons] at hsome
      have hd' := Fs.entry_above hnested (List.cons_ne_nil m names) hsome
      refine absurd ?_ hnot
      rw [Fs.lookup, (locate_child_dir hlinks hdir hname _).mpr ⟨d, hd, rfl, hd'⟩,
        Option.bind_some, hd']

theorem checkFile_scans {recur : Text → Found → Py Found} {E : Exn → Prop}
    (hlinks : fs.NoLinks) (hnested : fs.Nested) (hdir : dir.getLast? = some '/')
    (hname : ValidName name)
    (hrecur : Scans umask fs (recur (dir ++ name ++ ['/']) found)
      (Spec fs jail (dir ++ name ++ ['/']) (fun _ => True) found)
      fun e => IsOsError e ∧ fs.lookup true (jail ++ (dir ++ name ++ ['/'])) ≠ some .dir) :
    Scans umask fs (checkFile recur jail (dir ++ name) found)
      (Spec fs jail dir (· = name) found) E := by
  apply exceptMissing_scans
  have hmissing : ∀ e, IsOsError e ∧ statPath fs false (dir ++ name) = none ∧
      (e = .osError ENOENT ↔ ¬ fs.Blocked (dir ++ name)) →
      ∃ errno, e = .osError errno ∧ Spec fs jail dir (· = name) found
        (if errno = ENOENT then found.clean (dir ++ name) else found) := by
    intro e ⟨⟨errno, herr⟩, hnone, henoent⟩
    have hspec := @spec_missing fs jail dir name found hname (statPath_eq_none_iff.mp hnone)
    refine ⟨errno, herr, ?_⟩
    rw [herr] at henoent
    split
    next h => exact hspec.2 (henoent.mp (by rw [h]))
    next h =>
      refine hspec.1 (Classical.not_not.mp fun hnot => h ?_)
      cases henoent.mpr hnot
      rfl
  apply scans_bind (scans_mono (scans_lstatSize (dir ++ name)) (fun _ h => h) hmissing)
  intro sbuf ⟨buf, hbuf, hformat⟩
  have hsome : fs.lookup false (dir ++ name) ≠ none := by
    intro hnone
    rw [statPath_eq_none_iff.mpr hnone] at hbuf
    cases hbuf
  rw [hformat]
  cases hf : buf.format with
  | dir =>
      have hhost := (statPath_dir_iff hbuf).mp hf
      have hwalked : Walked fs dir [name] := fun hnone => absurd hnone hsome
      apply scans_mono hrecur
      · exact fun found' h => spec_below hlinks hnested hdir hname hhost h
      · intro e ⟨⟨errno, herr⟩, hnot⟩
        have hcomplete : ∀ found', Complete fs jail dir (· = name) found' :=
          fun _ => spec_unlisted hlinks hnested hdir hname hhost hnot
        refine ⟨errno, herr, ?_⟩
        split
        · exact ⟨sound_add hname hwalked (files_clean found _),
            fun f hf => List.mem_append_left _ hf, hcomplete _⟩
        · exact ⟨sound_refl, fun _ => id, hcomplete _⟩
  | reg =>
      have hnotdir : fs.lookup false (dir ++ name) ≠ some .dir := by
        intro hhost
        rw [(statPath_dir_iff hbuf).mpr hhost] at hf
        cases hf
      obtain ⟨hstill, hupdate, hclean⟩ :=
        @spec_other fs jail dir name found hname hsome hnotdir
      apply scans_bind (needUpdate_scans _ _ _)
      intro ret _
      split
      · exact scans_pure _ hupdate
      · split
        · exact scans_pure _ hclean
        · exact scans_pure _ hstill
  | lnk | chr | blk | other =>
      have hnotdir : fs.lookup false (dir ++ name) ≠ some .dir := by
        intro hhost
        rw [(statPath_dir_iff hbuf).mpr hhost] at hf
        cases hf
      exact scans_pure _ (spec_other hname hsome hnotdir).1

theorem spec_trans {heads heads' : Text → Prop} {found'' : Found}
    (h : Spec fs jail dir heads found found') (h' : Spec fs jail dir heads' found' found'') :
    Spec fs jail dir (fun n => heads n ∨ heads' n) found found'' := by
  refine ⟨fun f hf => ?_, fun f hf => h'.keeps f (h.keeps f hf), ?_⟩
  · cases h'.sound f hf with
    | inl hold => exact h.sound f hold
    | inr hnew => exact Or.inr hnew
  · intro d n names hd hn hvalid hregular hwalked hnone
    cases hn with
    | inl hn => exact h'.keeps _ (h.complete d n names hd hn hvalid hregular hwalked hnone)
    | inr hn => exact h'.complete d n names hd hn hvalid hregular hwalked hnone

theorem spec_mono {heads heads' : Text → Prop} (h : Spec fs jail dir heads found found')
    (hheads : ∀ d n names, fs.locate true (jail ++ dir) = some d → heads' n → ValidName n →
      Regular fs (d ++ n :: names) → heads n) : Spec fs jail dir heads' found found' := by
  refine ⟨h.sound, h.keeps, fun d n names hd hn hvalid hregular => ?_⟩
  exact h.complete d n names hd (hheads d n names hd hn (hvalid n List.mem_cons_self) hregular)
    hvalid hregular

theorem scanNames_scans {recur : Text → Found → Py Found} {E : Exn → Prop}
    (hlinks : fs.NoLinks) (hnested : fs.Nested) (hdir : dir.getLast? = some '/')
    (files : List Text) (hfiles : ∀ name ∈ files, ValidName name)
    (hrecur : ∀ name ∈ files, ∀ found, Scans umask fs (recur (dir ++ name ++ ['/']) found)
      (Spec fs jail (dir ++ name ++ ['/']) (fun _ => True) found)
      fun e => IsOsError e ∧ fs.lookup true (jail ++ (dir ++ name ++ ['/'])) ≠ some .dir)
    (found : Found) :
    Scans umask fs (scanNames recur jail [] dir files found)
      (Spec fs jail dir (· ∈ files) found) E := by
  induction files generalizing found with
  | nil =>
      refine scans_pure found ⟨sound_refl, fun _ => id, ?_⟩
      intro d n names _ hn
      cases hn
  | cons name files ih =>
      have hone : Scans umask fs (scanName recur jail [] dir name found)
          (Spec fs jail dir (· = name) found) E := by
        rw [scanName, if_neg (by simp)]
        exact checkFile_scans hlinks hnested hdir (hfiles name List.mem_cons_self)
          (hrecur name List.mem_cons_self found)
      apply scans_bind hone
      intro found₁ h₁
      have hrest := ih (fun n hn => hfiles n (List.mem_cons_of_mem name hn))
        (fun n hn => hrecur n (List.mem_cons_of_mem name hn)) found₁
      apply scans_mono hrest
      · intro found₂ h₂
        exact spec_mono (spec_trans h₁ h₂) fun _ _ _ _ hn _ _ => List.mem_cons.mp hn
      · exact fun e he => he

/-- The recursion ends with the trees. -/
theorem find2update_scans (hlinks : fs.NoLinks) (hnested : fs.Nested) {B : Nat}
    (hB : fs.DepthBound B) (n : Nat) (dir : Text) (found : Found)
    (hdir : dir.getLast? = some '/') (hn : 0 < n)
    (hfuel : ∀ d, fs.locate true (jail ++ dir) = some d → B + 2 ≤ n + d.length) :
    Scans umask fs (find2update jail [] n dir found)
      (Spec fs jail dir (fun _ => True) found)
      fun e => IsOsError e ∧ fs.lookup true (jail ++ dir) ≠ some .dir := by
  induction n generalizing dir found with
  | zero => exact absurd hn (Nat.lt_irrefl 0)
  | succ n ih =>
      apply scans_bind (scans_listdir (jail ++ dir))
      intro files ⟨d, hd, hentry, hlists⟩
      have hlength := hB d (by rw [hentry]; rfl)
      have hpositive : 0 < n := by
        have := hfuel d hd
        omega
      have hrecur : ∀ name ∈ files, ∀ found,
          Scans umask fs (find2update jail [] n (dir ++ name ++ ['/']) found)
            (Spec fs jail (dir ++ name ++ ['/']) (fun _ => True) found) fun e => IsOsError e ∧
              fs.lookup true (jail ++ (dir ++ name ++ ['/'])) ≠ some .dir := by
        intro name hname found
        apply ih _ found (by simp) hpositive
        intro d' hd'
        obtain ⟨d₀, hd₀, heq, _⟩ :=
          (locate_child_dir hlinks hdir ((hlists.2 name).mp hname).1 d').mp hd'
        rw [hd] at hd₀
        cases hd₀
        have := hfuel d hd
        rw [heq, List.length_append, List.length_singleton]
        omega
      have hvalid : ∀ name ∈ files, ValidName name :=
        fun name hname => ((hlists.2 name).mp hname).1
      apply scans_mono (scanNames_scans hlinks hnested hdir files hvalid hrecur found)
      · intro found' h
        -- what has a file below it or is one has been listed
        refine spec_mono h fun d' name names hd' _ hname hregular => ?_
        rw [hd] at hd'
        cases hd'
        refine (hlists.2 name).mpr ⟨hname, ?_⟩
        have hsome := regular_isSome hregular
        cases names with
        | nil => exact hsome
        | cons m names =>
            rw [List.append_cons] at hsome
            rw [Fs.entry_above hnested (List.cons_ne_nil m names) hsome]
            rfl
      · exact fun e he => he

end

end Jailkit.Update
