import Jailkit.Lib.Changes
import Jailkit.Tools.Containment
import Jailkit.Tools.HomeOnly

/-!
What the calls of a move change, where each path of it leads to one directory: the files that
are copied are new, and what is removed stands below the source.
-/
namespace Jailkit.Tools

open JkLib Raising Fs

def Listable (s : World) : (c : Call) → Res c → Prop
  | .scandir path, .error _ => s.fs.lookup true path ≠ some .dir
  | _, _ => True

/-- Besides, where `os.walk` comes to the name of a directory, the name is free. -/
def Vacated (s : World) : (c : Call) → Res c → Prop
  | .islink path, _ => (s.fs.place path).isSome
  | c, r => Listable s c r

/-- The path leads to the directory `L`, or later to none. -/
def Denotes (fs : Fs) (path : Text) (L : Loc) : Prop :=
  path ≠ [] ∧ ∀ fs', Evolves fs fs' → ∀ x, fs'.locate true path = some x →
    fs'.entry x = some .dir → x = L

section

variable {made gone : Loc → Prop} {fs fs' : Fs} {L x : Loc} {path name : Text}

theorem calm_changes (h : Calm L fs) (hc : Changes made gone fs fs') : Calm L fs' :=
  fun x t hx he => h x t hx ((hc.links x t).mp he)

theorem calm_below (h : Calm L fs) (name : Text) : Calm (L ++ [name]) fs :=
  fun x t hx => h x t ((List.prefix_append L [name]).trans hx)

theorem denotes_changes (h : Denotes fs path L) (hc : Changes made gone fs fs') :
    Denotes fs' path L :=
  ⟨h.1, fun fs'' hc' => h.2 fs'' (changes_trans (evolves_of_changes hc) hc')⟩

theorem denotes_of_locate {follow : Bool} (h : fs.locate follow path = some L)
    (hfollow : FollowsAs fs follow true L) : Denotes fs path L := by
  refine ⟨(locate_eq_some.mp h).1, fun fs' hc x hx hdir => ?_⟩
  have hthere : fs'.resolve true path = some x := resolve_eq_some.mpr ⟨hx, by rw [hdir]; rfl⟩
  exact locate_keepsLinks (keepsLinks_changes hc) h hthere hfollow

theorem denotes_dirPath (h : Denotes fs (dirPath path) L) : Denotes fs path L := by
  refine ⟨fun hnil => h.1 (by rw [hnil]; rfl), fun fs' hc x hx => ?_⟩
  exact h.2 fs' hc x (locate_dirPath hx)

theorem denotes_resolve (h : Denotes fs path L) {d : Loc} (hd : fs.resolve true path = some d)
    (hdir : fs.entry d = some .dir) : d = L :=
  h.2 fs (changes_refl _ _ fs) d (resolve_eq_some.mp hd).1 hdir

/-- A name in a directory without symlinks stands where the path says. -/
theorem denotes_locate {follow : Bool} (h : Denotes fs path L) (hcalm : Calm L fs)
    (hname : ValidName name) (hx : fs.locate follow (path ++ '/' :: name) = some x) :
    x = L ++ [name] := by
  obtain ⟨d, hd, hdir, hlast⟩ := locate_child h.1 hname hx
  have hsame := denotes_resolve h hd hdir
  subst hsame
  cases hlast with
  | inl heq => exact heq
  | inr hlink =>
      obtain ⟨-, t, ht⟩ := hlink
      exact absurd ht (hcalm _ t (List.prefix_append d [name]))

theorem denotes_child (h : Denotes fs path L) (hcalm : Calm L fs) (hname : ValidName name) :
    Denotes fs (path ++ '/' :: name) (L ++ [name]) := by
  refine ⟨by simp, fun fs' hc x hx _ => ?_⟩
  exact denotes_locate (denotes_changes h hc) (calm_changes hcalm hc) hname hx

end

section

variable {made gone : Loc → Prop} {umask : Nat} {s : World} {S D L : Loc} {path src dst : Text}
  {α : Type}

instance : Std.Refl (fun s s' : World => Changes made gone s.fs s'.fs) :=
  ⟨fun s => changes_refl made gone s.fs⟩

instance : IsTrans World (fun s s' : World => Changes made gone s.fs s'.fs) :=
  ⟨fun _ _ _ h h' => changes_trans h h'⟩

/-- A run of `p` from `s` changes only what it may. -/
abbrev Alters (umask : Nat) (made gone : Loc → Prop) (p : Py α) (Q : α → World → Prop)
    (s : World) : Prop :=
  Along (posixWhere umask Vacated) (fun _ _ => True)
    (fun s s' => Changes made gone s.fs s'.fs) p Q s

theorem alters_mono {made' gone' : Loc → Prop} {p : Py α} {Q Q' : α → World → Prop}
    (h : Alters umask made gone p Q s) (hmade : ∀ x, made x → made' x)
    (hgone : ∀ x, gone x → gone' x) (hQ : ∀ a s', Changes made gone s.fs s'.fs → Q a s' → Q' a s') :
    Alters umask made' gone' p Q' s :=
  along_mono (along_related h) (fun _ hc => changes_mono hc hmade hgone)
    fun a s' hq => hQ a s' hq.1 hq.2

theorem alters_plain {p : Py α} (hp : Prog.Only Plain p) :
    Alters umask made gone p (fun _ s' => Unmoved s.fs s'.fs) s := by
  have hunmoved : Alters umask (fun _ => False) (fun _ => False) p (fun _ _ => True) s := by
    apply along_of_only hp
    · intro s₁ c r s₂ hc hM
      cases posix_does hM.1 with
      | inl hsame =>
          rw [hsame]
          exact changes_refl _ _ s₁.fs
      | inr hdoes =>
          cases c with
          | utime _ _ _ | chmod _ _ => exact changes_setAttrs hdoes
          | chown _ _ _ =>
              obtain ⟨keep, hset⟩ := hdoes
              exact changes_setAttrs hset
          | stat _ | islink _ => exact hdoes.elim
          | _ => exact hc.elim
    · exact fun _ _ _ => trivial
  exact alters_mono hunmoved (fun _ hf => hf.elim) (fun _ hf => hf.elim) fun _ _ hc _ => hc

theorem alters_mkdir (mode : Nat) (hplace : ∀ x, s.fs.placeDir path = some x → x = L) :
    Alters umask (· = L) (fun _ => False) (mkdir path mode)
      (fun _ s' => s.fs.placeDir path = some L ∧ s'.fs.entry L = some .dir) s := by
  refine ⟨trivial, fun r s' h => ?_⟩
  cases r with
  | error e =>
      have hsame : s' = s := h.1.2
      rw [hsame]
      exact changes_refl _ _ s.fs
  | ok u =>
      obtain ⟨fs', ⟨a, -, hmk⟩, heq⟩ := h.1
      obtain ⟨x, hx, hdir, hc⟩ := changes_mkdir hmk
      have hxL := hplace x hx
      subst hxL heq
      exact ⟨hc, hx, hdir⟩

def ScanResult (fs : Fs) (path : Text) : Except Exn (List (Text × Bool)) → Prop
  | .ok entries => ScansDir fs path (.ok entries)
  | .error _ => fs.lookup true path ≠ some .dir

theorem alters_scandir :
    Alters umask made gone (attempt (scandir path))
      (fun r s' => s' = s ∧ ScanResult s.fs path r) s := by
  refine ⟨trivial, fun r s' h => ?_⟩
  have hsame : s' = s := h.1.2
  subst hsame
  cases r with
  | error e => exact ⟨changes_refl _ _ s'.fs, rfl, h.2⟩
  | ok entries => exact ⟨changes_refl _ _ s'.fs, rfl, h.1.1⟩

theorem alters_islink :
    Alters umask made gone (islink path)
      (fun _ s' => s' = s ∧ (s.fs.place path).isSome) s := by
  refine ⟨trivial, fun r s' h => ?_⟩
  have hsame : s' = s := h.1.2
  subst hsame
  exact ⟨changes_refl _ _ s'.fs, rfl, h.2⟩

/-- A file is copied to where nothing stands. -/
theorem alters_copyfile (hsrc : ∀ x, s.fs.locate true src = some x → x = L)
    (hdst : ∀ x, s.fs.locate true dst = some x → x = D) (hnone : s.fs.entry D = none) :
    Alters umask (· = D) (fun _ => False) (copyfile src dst)
      (fun _ s' => ∀ content, s.fs.HasContent L content → s'.fs.HasContent D content) s := by
  have hopens : ∀ a content fs', s.fs.openWrite dst a content = some fs' →
      fs'.HasContent D content ∧ Changes (· = D) (fun _ => False) s.fs fs' := by
    intro a content fs' hopen
    obtain ⟨x, hx, -⟩ := Option.bind_eq_some_iff.mp hopen
    have hxD := hdst x hx
    subst hxD
    exact changes_openWrite hopen hx hnone
  refine ⟨trivial, fun r s' h => ?_⟩
  cases r with
  | error e =>
      cases h.1.2 with
      | inl hsame =>
          rw [hsame]
          exact changes_refl _ _ s.fs
      | inr hpart =>
          obtain ⟨a, content, fs', -, hopen, heq⟩ := hpart
          rw [heq]
          exact (hopens a content fs' hopen).2
  | ok u =>
      obtain ⟨x, ino, a, fs', hx, he, -, -, hopen, heq⟩ := h.1
      have hxL := hsrc x hx
      subst hxL heq
      obtain ⟨hcontent, hc⟩ := hopens a _ fs' hopen
      refine ⟨hc, fun content hold => ?_⟩
      obtain ⟨ino', he', hold⟩ := hold
      rw [he] at he'
      cases he'
      rwa [← hold]

theorem alters_rmtree (hsrc : Denotes s.fs path L) (hcalm : Calm L s.fs) :
    Alters umask (fun _ => False) (L <+: ·) (rmtree path) (fun _ _ => True) s := by
  have hc : ∀ s' : World, Does umask s.fs s'.fs (.rmtree path) →
      Changes (fun _ => False) (L <+: ·) s.fs s'.fs := by
    intro s' hdoes
    obtain ⟨x, p, hx, hdir, hp, heq⟩ := hdoes
    have hxL : x = L :=
      hsrc.2 s.fs (changes_refl _ _ s.fs) x (locate_follow hx (by simp [hdir])) hdir
    subst hxL
    rw [heq]
    exact changes_removeIf hp fun y t hy => hcalm y t (hp y hy)
  refine ⟨trivial, fun r s' h => ?_⟩
  have hend : Changes (fun _ => False) (L <+: ·) s.fs s'.fs := by
    cases posix_does h.1 with
    | inl hsame =>
        rw [hsame]
        exact changes_refl _ _ s.fs
    | inr hdoes => exact hc s' hdoes
  cases r with
  | error e => exact hend
  | ok u => exact ⟨hend, trivial⟩

/-- Where the path leads to no directory there is nothing to remove. -/
theorem alters_rmtree_missing (hsrc : s.fs.lookup true path ≠ some .dir) :
    Alters umask (fun _ => False) (fun _ => False) (rmtree path) (fun _ _ => True) s := by
  refine ⟨trivial, fun r s' h => ?_⟩
  have hend : Unmoved s.fs s'.fs := by
    cases posix_does h.1 with
    | inl hsame =>
        rw [hsame]
        exact changes_refl _ _ s.fs
    | inr hdoes =>
        obtain ⟨x, p, hx, hdir, -, -⟩ := hdoes
        have hthere : s.fs.lookup false path = some .dir := by
          rw [lookup, hx, Option.bind_some, hdir]
        exact absurd (lookup_follow hthere (by simp)) hsrc
  cases r with
  | error e => exact hend
  | ok u => exact ⟨hend, trivial⟩

/-- One file, or what there is of it when the copy fails. -/
theorem copyFile_alters {name : Text} (hnumbered : s.fs.Numbered) (hsrc : Denotes s.fs src S)
    (hdst : Denotes s.fs dst D) (hcalm : Calm S s.fs) (hcalm' : Calm D s.fs)
    (hname : ValidName name) (hnone : s.fs.entry (D ++ [name]) = none) :
    Alters umask (· = D ++ [name]) (fun _ => False)
      (catchOs (do
        copyfile (src ++ '/' :: name) (dst ++ '/' :: name)
        copyTimeAndPermissions (src ++ '/' :: name) (dst ++ '/' :: name) false true
        pure true) (pure false))
      (fun ok s' => ok = true → ∀ content, s.fs.HasContent (S ++ [name]) content →
        s'.fs.HasContent (D ++ [name]) content) s := by
  apply along_catchOs
  · apply along_bind (alters_copyfile (fun x hx => denotes_locate hsrc hcalm hname hx)
      (fun x hx => denotes_locate hdst hcalm' hname hx) hnone)
    intro _ s₁ hc hcopied
    apply along_bind (alters_plain (copyTimeAndPermissions_plain _ _ false true))
    intro _ s₂ _ hunmoved
    exact along_pure true fun _ content hcontent =>
      content_changes hunmoved (hc.numbered hnumbered) id id (hcopied content hcontent)
  · exact fun s' _ => along_pure false fun h => by cases h

theorem copyFiles_alters (files : List Text) (s : World) (hnumbered : s.fs.Numbered)
    (hsrc : Denotes s.fs src S) (hdst : Denotes s.fs dst D) (hcalm : Calm S s.fs)
    (hcalm' : Calm D s.fs)
    (hfiles : ∀ f ∈ files, ValidName f ∧ s.fs.entry (D ++ [f]) = none) (hnodup : files.Nodup) :
    Alters umask (fun x => ∃ f ∈ files, x = D ++ [f]) (fun _ => False) (copyFiles src dst files)
      (fun ok s' => ok = true → ∀ f ∈ files, ∀ content, s.fs.HasContent (S ++ [f]) content →
        s'.fs.HasContent (D ++ [f]) content) s := by
  induction files generalizing s with
  | nil => exact along_pure true fun _ f hf => absurd hf List.not_mem_nil
  | cons f files ih =>
      obtain ⟨hname, hnone⟩ := hfiles f List.mem_cons_self
      obtain ⟨hf, hnodup⟩ := List.nodup_cons.mp hnodup
      rw [copyFiles]
      apply along_bind (Q := fun ok s' => Changes (· = D ++ [f]) (fun _ => False) s.fs s'.fs ∧
        (ok = true → ∀ content, s.fs.HasContent (S ++ [f]) content →
          s'.fs.HasContent (D ++ [f]) content))
      · apply alters_mono (copyFile_alters hnumbered hsrc hdst hcalm hcalm' hname hnone)
        · exact fun x hx => ⟨f, List.mem_cons_self, hx⟩
        · exact fun _ hx => hx
        · exact fun ok s' hc hok => ⟨hc, hok⟩
      · intro ok s' _ hok
        obtain ⟨hc, hcopied⟩ := hok
        cases ok with
        | false => exact along_pure false fun h => by cases h
        | true =>
            have hrest : ∀ f' ∈ files, ValidName f' ∧ s'.fs.entry (D ++ [f']) = none := by
              intro f' hf'
              obtain ⟨hname', hnone'⟩ := hfiles f' (List.mem_cons_of_mem f hf')
              refine ⟨hname', none_changes hc ?_ hnone'⟩
              intro heq
              have hsame : f' = f := by simpa using heq
              exact hf (hsame ▸ hf')
            apply alters_mono (ih s' (hc.numbered hnumbered) (denotes_changes hsrc hc)
              (denotes_changes hdst hc) (calm_changes hcalm hc) (calm_changes hcalm' hc) hrest
              hnodup)
            · exact fun x hx => hx.imp fun f' hf' => ⟨List.mem_cons_of_mem f hf'.1, hf'.2⟩
            · exact fun _ hx => hx
            · intro ok s'' hc' hfilled hok f' hf' content hcontent
              cases List.mem_cons.mp hf' with
              | inl heq =>
                  subst heq
                  refine content_changes hc' (hc.numbered hnumbered) ?_ id
                    (hcopied rfl content hcontent)
                  intro hmade
                  obtain ⟨f'', hf'', heq⟩ := hmade
                  have hsame : f' = f'' := by simpa using heq
                  exact hf (hsame ▸ hf'')
              | inr hmem =>
                  refine hfilled hok f' hmem content (content_changes hc hnumbered ?_ id hcontent)
                  intro heq
                  obtain ⟨ino, he, -⟩ := hcontent
                  rw [heq, hnone] at he
                  cases he

structure Listing (S : Loc) (fs : Fs) (files dirs : List Text) : Prop where
  file : ∀ n ∈ files, ValidName n ∧ fs.entry (S ++ [n]) ≠ some .dir
  dir : ∀ n ∈ dirs, ValidName n ∧ fs.entry (S ++ [n]) = some .dir
  nodup : files.Nodup ∧ dirs.Nodup
  hasFile : ∀ n ino, ValidName n → fs.entry (S ++ [n]) = some (.file ino) → n ∈ files
  hasDir : ∀ n, ValidName n → fs.entry (S ++ [n]) = some .dir → n ∈ dirs

theorem nodup_names {entries : List (Text × Bool)} (h : (entries.map Prod.fst).Nodup)
    (p : Text × Bool → Bool) : ((entries.filter p).map Prod.fst).Nodup :=
  h.sublist (List.filter_sublist.map Prod.fst)

theorem listing_of_scansDir {fs : Fs} {entries : List (Text × Bool)} (hsrc : Denotes fs src S)
    (hcalm : Calm S fs) (h : ScansDir fs src (.ok entries)) :
    Listing S fs (filesOf entries) (dirsOf entries) := by
  obtain ⟨x, hx, hdir, hlists, hkind⟩ := h
  have hxS := hsrc.2 fs (changes_refl _ _ fs) x hx hdir
  subst hxS
  have hlink : ∀ n t, fs.entry (x ++ [n]) ≠ some (.symlink t) :=
    fun n t => hcalm _ t (List.prefix_append x [n])
  have hvalid : ∀ n isDir, (n, isDir) ∈ entries → ValidName n := fun n isDir hmem =>
    ((hlists.2 n).mp (List.mem_map.mpr ⟨(n, isDir), hmem, rfl⟩)).1
  have hlisted : ∀ n, ValidName n → (fs.entry (x ++ [n])).isSome → ∃ isDir, (n, isDir) ∈ entries := by
    intro n hn hsome
    obtain ⟨e, he, hfst⟩ := List.mem_map.mp ((hlists.2 n).mpr ⟨hn, hsome⟩)
    exact ⟨e.2, by rw [← hfst]; exact he⟩
  have hdirs : ∀ n, n ∈ dirsOf entries ↔ (n, true) ∈ entries := by
    intro n
    simp [dirsOf]
  have hfiles : ∀ n, n ∈ filesOf entries ↔ (n, false) ∈ entries := by
    intro n
    simp [filesOf]
  refine ⟨?_, ?_, ⟨nodup_names hlists.1 _, nodup_names hlists.1 _⟩, ?_, ?_⟩
  · intro n hn
    rw [hfiles] at hn
    exact ⟨hvalid n false hn, fun he => absurd ((hkind n false hn).1 he) (by simp)⟩
  · intro n hn
    rw [hdirs] at hn
    refine ⟨hvalid n true hn, ?_⟩
    cases (hkind n true hn).2 rfl with
    | inl he => exact he
    | inr hfollowed =>
        obtain ⟨⟨t, ht⟩, -⟩ := hfollowed
        exact absurd ht (hlink n t)
  · intro n ino hn he
    obtain ⟨isDir, hmem⟩ := hlisted n hn (by rw [he]; rfl)
    cases isDir with
    | false => exact (hfiles n).mpr hmem
    | true =>
        cases (hkind n true hmem).2 rfl with
        | inl hisdir =>
            rw [he] at hisdir
            cases hisdir
        | inr hfollowed =>
            obtain ⟨⟨t, ht⟩, -⟩ := hfollowed
            exact absurd ht (hlink n t)
  · intro n hn he
    obtain ⟨isDir, hmem⟩ := hlisted n hn (by rw [he]; rfl)
    rw [(hkind n isDir hmem).1 he] at hmem
    exact (hdirs n).mpr hmem

/-- Where the name is free there is nothing to walk over. -/
theorem walkFrom_vacated {move : Text → Text → Py Unit} (k : Nat) {path : Text}
    (hfree : (s.fs.place path).isSome) :
    Alters umask made gone (walkFrom move dst k path) (fun ok s' => ok = true ∧ s' = s) s := by
  cases k with
  | zero => exact along_raise _
  | succ k =>
      rw [walkFrom]
      apply along_bind alters_scandir
      intro r s' _ hr
      obtain ⟨heq, hr⟩ := hr
      subst heq
      cases r with
      | error e => exact along_pure true ⟨rfl, rfl⟩
      | ok entries =>
          exfalso
          obtain ⟨x, hx⟩ := Option.isSome_iff_exists.mp hfree
          obtain ⟨hloc, hnone⟩ := place_eq_some.mp hx
          obtain ⟨y, hy, hdir, -, -⟩ := hr
          rw [locate_follow hloc (by simp [hnone])] at hy
          cases hy
          rw [hnone] at hdir
          cases hdir

theorem walkDirs_vacated {move : Text → Text → Py Unit} (k : Nat) (names : List Text)
    (hsrc : Denotes s.fs src S) (hnames : ∀ n ∈ names, ValidName n) :
    Alters umask made gone (walkDirs (walkFrom move dst k) src names)
      (fun ok s' => ok = true ∧ s' = s ∧ ∀ n ∈ names, s.fs.entry (S ++ [n]) = none) s := by
  induction names with
  | nil => exact along_pure true ⟨rfl, rfl, fun n hn => absurd hn List.not_mem_nil⟩
  | cons n names ih =>
      have hname := hnames n List.mem_cons_self
      have hrest := ih fun m hm => hnames m (List.mem_cons_of_mem n hm)
      rw [walkDirs]
      apply along_bind alters_islink
      intro link s' _ hfree
      obtain ⟨heq, hfree⟩ := hfree
      subst heq
      have hgone : s'.fs.entry (S ++ [n]) = none := by
        obtain ⟨x, hx⟩ := Option.isSome_iff_exists.mp hfree
        obtain ⟨hloc, hnone⟩ := place_eq_some.mp hx
        obtain ⟨d, hd, hdir, hlast⟩ := locate_join hsrc.1 hname hloc
        have hsame := denotes_resolve hsrc hd hdir
        subst hsame
        cases hlast with
        | inl heq => rwa [← heq]
        | inr hfollow => cases hfollow.1
      have hall : Alters umask made gone (walkDirs (walkFrom move dst k) src names)
          (fun ok s'' => ok = true ∧ s'' = s' ∧ ∀ m ∈ n :: names, s'.fs.entry (S ++ [m]) = none) s' := by
        apply along_mono hrest (fun _ hc => hc)
        intro ok s'' hend
        refine ⟨hend.1, hend.2.1, fun m hm => ?_⟩
        cases List.mem_cons.mp hm with
        | inl heq => rwa [heq]
        | inr hmem => exact hend.2.2 m hmem
      cases link with
      | true => exact hall
      | false =>
          apply along_bind (walkFrom_vacated k hfree)
          intro below s'' _ hbelow
          obtain ⟨heq, heq'⟩ := hbelow
          subst heq heq'
          exact hall

/-- Where the new directory cannot be made nothing happens. -/
theorem moveDir_unmade (k : Nat) (hnone : s.fs.placeDir dst = none) :
    Alters umask made gone (moveDir k src dst) (fun _ s' => Unmoved s.fs s'.fs) s := by
  have hmkdir : Alters umask (fun _ => False) (fun _ => False) (mkdir dst 0o777) (fun _ _ => False)
      s := by
    refine ⟨trivial, fun r s' h => ?_⟩
    cases r with
    | error e =>
        have hsame : s' = s := h.1.2
        rw [hsame]
        exact changes_refl _ _ s.fs
    | ok u =>
        obtain ⟨fs', ⟨a, -, hmk⟩, -⟩ := h.1
        obtain ⟨x, hx, -⟩ := changes_mkdir hmk
        rw [hnone] at hx
        cases hx
  have hrun : Alters umask (fun _ => False) (fun _ => False) (moveDir k src dst) (fun _ _ => True)
      s := by
    cases k with
    | zero => exact along_raise _
    | succ k =>
        rw [moveDir, copyDirWith]
        apply along_bind (Q := fun ok _ => ok = false)
        · apply along_bind (Q := fun ok _ => ok = false)
          · apply along_catchOs
            · exact along_bind hmkdir fun _ _ _ hfalse => hfalse.elim
            · exact fun s' _ => along_pure false rfl
          · intro ok s' _ hok
            subst hok
            exact along_pure false rfl
        · intro ok s' _ hok
          subst hok
          exact along_pure () trivial
  exact alters_mono hrun (fun _ hf => hf.elim) (fun _ hf => hf.elim) fun _ _ hc _ => hc

end

end Jailkit.Tools
