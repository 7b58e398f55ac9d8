import Jailkit.Lib.Trees
import Jailkit.Tools.MoveParts

/-!
What moving a directory loses. A move that fails inside of another one leaves its directory
behind, and the `os.walk` of the outer one goes on into it. Where that does not happen, each
file is copied to its place before it is removed.
-/
namespace Jailkit.Tools

open JkLib Raising Fs

/-- Each file below `S` is still there, or has its like below the directory that was made. -/
def LosesNothing (S : Loc) (made : Option Loc) (fs fs' : Fs) : Prop :=
  ∀ rel content, (∀ n ∈ rel, ValidName n) → fs.HasContent (S ++ rel) content →
    fs'.HasContent (S ++ rel) content ∨ ∃ D, made = some D ∧ fs'.HasContent (D ++ rel) content

/-- Whatever fails, a move that comes to its end has copied all, or left all where it was. -/
def Settling (umask : Nat) (move : Text → Text → Py Unit) : Prop :=
  ∀ src dst S D s, Ready S D s.fs → Denotes s.fs src S →
    (∀ x, s.fs.placeDir dst = some x → x = D) →
    Alters umask (D <+: ·) (S <+: ·) (move src dst) (fun _ s' => Settles S D s.fs s'.fs) s

section

variable {umask : Nat} {move : Text → Text → Py Unit} {S D : Loc} {src dst : Text}

/-- Each name leads to a move of its own, and none of them touches another's directories. -/
theorem moveDirs_alters (hmove : Settling umask move)
    (names : List Text) (s : World) (hsrc : Denotes s.fs src S) (hdst : Denotes s.fs dst D)
    (hcalm : Calm S s.fs) (hcalm' : Calm D s.fs)
    (hnames : ∀ n ∈ names, ValidName n ∧ Ready (S ++ [n]) (D ++ [n]) s.fs) (hnodup : names.Nodup) :
    Alters umask (fun x => ∃ n ∈ names, D ++ [n] <+: x) (fun x => ∃ n ∈ names, S ++ [n] <+: x)
      (moveDirs move src dst names)
      (fun _ s' => ∀ n ∈ names, Accounted S D n s.fs s'.fs) s := by
  induction names generalizing s with
  | nil => exact along_pure () fun n hn => absurd hn List.not_mem_nil
  | cons n names ih =>
      obtain ⟨hname, hready⟩ := hnames n List.mem_cons_self
      obtain ⟨hn, hnodup⟩ := List.nodup_cons.mp hnodup
      have hplace : ∀ x, s.fs.placeDir (dst ++ '/' :: n) = some x → x = D ++ [n] := by
        intro x hx
        rw [placeDir_child hname] at hx
        exact denotes_locate hdst hcalm' hname (place_eq_some.mp hx).1
      rw [moveDirs]
      apply along_bind (Q := fun _ s' => Changes (D ++ [n] <+: ·) (S ++ [n] <+: ·) s.fs s'.fs ∧
        Settles (S ++ [n]) (D ++ [n]) s.fs s'.fs)
      · apply alters_mono (hmove _ _ _ _ s hready (denotes_child hsrc hcalm hname) hplace)
        · exact fun x hx => ⟨n, List.mem_cons_self, hx⟩
        · exact fun x hx => ⟨n, List.mem_cons_self, hx⟩
        · exact fun _ s' hc hend => ⟨hc, hend⟩
      · intro _ s' _ hend
        obtain ⟨hc, hend⟩ := hend
        have hother : ∀ m ∈ names, n ≠ m := fun m hm heq => hn (heq ▸ hm)
        have hrest : ∀ m ∈ names, ValidName m ∧ Ready (S ++ [m]) (D ++ [m]) s'.fs := by
          intro m hm
          obtain ⟨hvalid, hready'⟩ := hnames m (List.mem_cons_of_mem n hm)
          exact ⟨hvalid, ready_changes hready' hready (hother m hm) hc⟩
        apply alters_mono (ih s' (denotes_changes hsrc hc) (denotes_changes hdst hc)
          (calm_changes hcalm hc) (calm_changes hcalm' hc) hrest hnodup)
        · exact fun x hx => hx.imp fun m hm => ⟨List.mem_cons_of_mem n hm.1, hm.2⟩
        · exact fun x hx => hx.imp fun m hm => ⟨List.mem_cons_of_mem n hm.1, hm.2⟩
        · intro _ s'' hc' haccounted m hm
          cases List.mem_cons.mp hm with
          | inl heq =>
              subst heq
              exact accounted_after (accounted_of_settles hready hend) (hc.numbered hready.numbered) hn
                (fun n' hn' => (hrest n' hn').2) hc'
          | inr hmem =>
              exact accounted_before (haccounted m hmem) hready.numbered (hother m hmem) hc

theorem walkFrom_alters (hmove : Settling umask move)
    (k : Nat) (s : World) (h : Begun S D s.fs) (hsrc : Denotes s.fs src S)
    (hdst : Denotes s.fs dst D) :
    Alters umask (D <+: ·) (S <+: ·) (walkFrom move dst k src)
      (fun ok s' => CopyEnds src S D s.fs ok s'.fs) s := by
  cases k with
  | zero => exact along_raise _
  | succ k =>
      rw [walkFrom]
      apply along_bind alters_scandir
      intro r s' _ hr
      obtain ⟨heq, hr⟩ := hr
      subst heq
      cases r with
      | error e => exact along_pure true (Or.inr ⟨fun _ _ => rfl, fun _ => hr⟩)
      | ok entries =>
          have hlist := listing_of_scansDir hsrc h.calm hr
          have hfiles : ∀ f ∈ filesOf entries, ValidName f ∧ s'.fs.entry (D ++ [f]) = none :=
            fun f hf => ⟨(hlist.file f hf).1, h.bare _ (List.prefix_append D [f]) (by simp)⟩
          apply along_bind (Q := fun ok s₁ =>
            Changes (fun x => ∃ f ∈ filesOf entries, x = D ++ [f]) (fun _ => False) s'.fs s₁.fs ∧
              (ok = true → ∀ f ∈ filesOf entries, ∀ content,
                s'.fs.HasContent (S ++ [f]) content → s₁.fs.HasContent (D ++ [f]) content))
          · apply alters_mono (copyFiles_alters _ s' h.numbered hsrc hdst h.calm (begun_calm h)
              hfiles hlist.nodup.1)
            · intro x hx
              obtain ⟨f, -, heq⟩ := hx
              rw [heq]
              exact List.prefix_append D [f]
            · exact fun x hx => hx.elim
            · exact fun ok s₁ hc hfilled => ⟨hc, hfilled⟩
          · intro ok s₁ _ hcopied
            obtain ⟨hc, hfilled⟩ := hcopied
            cases ok with
            | false =>
                refine along_pure false (Or.inr ⟨fun x hx => ?_, fun h => by cases h⟩)
                refine entry_changes hc ?_ id
                intro hmade
                obtain ⟨f, -, heq⟩ := hmade
                exact hx (by rw [heq]; exact List.prefix_append D [f])
            | true =>
                apply along_bind (Q := fun _ s₂ =>
                  Changes (fun x => ∃ n ∈ dirsOf entries, D ++ [n] <+: x)
                    (fun x => ∃ n ∈ dirsOf entries, S ++ [n] <+: x) s₁.fs s₂.fs ∧
                  ∀ n ∈ dirsOf entries, Accounted S D n s₁.fs s₂.fs)
                · apply alters_mono (moveDirs_alters hmove _ s₁ (denotes_changes hsrc hc)
                    (denotes_changes hdst hc) (calm_changes h.calm hc)
                    (calm_changes (begun_calm h) hc)
                    (fun n hn => ⟨(hlist.dir n hn).1, ready_of_begun h hlist hc hn⟩)
                    hlist.nodup.2)
                  · intro x hx
                    obtain ⟨n, -, hin⟩ := hx
                    exact (List.prefix_append D [n]).trans hin
                  · intro x hx
                    obtain ⟨n, -, hin⟩ := hx
                    exact (List.prefix_append S [n]).trans hin
                  · exact fun _ s₂ hc' haccounted => ⟨hc', haccounted⟩
                · intro _ s₂ _ hmoved
                  obtain ⟨hc', haccounted⟩ := hmoved
                  have hsrc' := denotes_changes (denotes_changes hsrc hc) hc'
                  apply along_mono (walkDirs_vacated k _ hsrc' fun n hn => (hlist.dir n hn).1)
                  · exact fun _ hc => hc
                  · intro ok s₃ hend
                    obtain ⟨-, heq, hgone⟩ := hend
                    subst heq
                    exact Or.inl (copied_of_accounted h hlist hc (hfilled rfl) hc' haccounted hgone)

theorem copyDirWith_alters (hmove : Settling umask move)
    (k : Nat) (s : World) (h : Ready S D s.fs) (hsrc : Denotes s.fs src S)
    (hplace : ∀ x, s.fs.placeDir dst = some x → x = D) :
    Alters umask (D <+: ·) (S <+: ·) (copyDirWith move k src dst)
      (fun ok s' => CopyEnds src S D s.fs ok s'.fs) s := by
  have hmade : Alters umask (· = D) (fun _ => False)
      (catchOs (do
        mkdir dst 0o777
        copyTimeAndPermissions src dst false true
        pure true) (pure false))
      (fun ok s' => ok = true → Begun S D s'.fs ∧ Denotes s'.fs dst D) s := by
    apply along_catchOs
    · apply along_bind (alters_mkdir 0o777 hplace)
      intro _ s₁ hc hmk
      obtain ⟨hat, hdir⟩ := hmk
      obtain ⟨hloc, hnone⟩ := place_eq_some.mp hat
      have hdst : Denotes s.fs dst D := denotes_dirPath
        (denotes_of_locate hloc (Or.inr ⟨rfl, fun t => by simp [hnone]⟩))
      apply along_bind (alters_plain (copyTimeAndPermissions_plain _ _ false true))
      intro _ s₂ _ hunmoved
      have hc' := changes_trans hc (changes_of_unmoved hunmoved)
      have hdir' : s₂.fs.entry D = some .dir := by rw [unmoved_entry hunmoved, hdir]
      exact along_pure true fun _ => ⟨begun_of_ready h hdir' hc', denotes_changes hdst hc'⟩
    · exact fun s' _ => along_pure false fun h => by cases h
  rw [copyDirWith]
  apply along_bind (Q := fun ok s' => Changes (· = D) (fun _ => False) s.fs s'.fs ∧
    (ok = true → Begun S D s'.fs ∧ Denotes s'.fs dst D))
  · apply alters_mono hmade
    · exact fun x hx => by rw [hx]
    · exact fun x hx => hx.elim
    · exact fun ok s' hc hbegun => ⟨hc, hbegun⟩
  · intro ok s' _ hend
    obtain ⟨hc, hbegun⟩ := hend
    have hoff : ∀ x, ¬ D <+: x → s'.fs.entry x = s.fs.entry x := fun x hx =>
      entry_changes hc (fun heq => hx (by rw [heq])) id
    cases ok with
    | false => exact along_pure false (Or.inr ⟨hoff, fun h => by cases h⟩)
    | true =>
        obtain ⟨hbegun, hdst⟩ := hbegun rfl
        apply along_mono (walkFrom_alters hmove k s' hbegun (denotes_changes hsrc hc) hdst)
        · exact fun _ hc' => hc'
        · intro ok s'' hend
          cases hend with
          | inl hcopied =>
              have hsame : ∀ x, S <+: x → s'.fs.entry x = s.fs.entry x :=
                fun x hx => hoff x (begun_apart hbegun hcopied.1 x hx)
              refine Or.inl ⟨hcopied.1, fun htree => ?_⟩
              exact copied_congr (hcopied.2 (treeAt_same htree hsame))
                (fun x _ hx => content_of_entry hc h.numbered (hsame x hx)) fun _ _ _ h => h
          | inr hkept => exact Or.inr ⟨fun x hx => (hkept.1 x hx).trans (hoff x hx), hkept.2⟩

theorem moveDir_alters (k : Nat) : Settling umask (moveDir k) := by
  induction k with
  | zero => exact fun _ _ _ _ _ _ _ _ => along_raise _
  | succ k ih =>
      intro src dst S D s h hsrc hplace
      rw [moveDir]
      apply along_bind (along_related (copyDirWith_alters ih k s h hsrc hplace))
      intro ok s' hc hend
      obtain ⟨-, hend⟩ := hend
      have hsrc' := denotes_changes hsrc hc
      have hcalm := calm_changes h.calm hc
      cases hend with
      | inl hall =>
          obtain ⟨hout, hcopied⟩ := hall
          cases ok with
          | false => exact along_pure () (Or.inl ⟨hout, hcopied⟩)
          | true =>
              have hrm : Alters umask (fun _ => False) (S <+: ·) (catchOs (rmtree src) (pure ()))
                  (fun _ _ => True) s' :=
                along_catchOs (alters_rmtree hsrc' hcalm) fun _ _ => along_pure () trivial
              apply alters_mono hrm
              · exact fun _ hx => hx.elim
              · exact fun _ hx => hx
              · intro _ s'' hc' _
                refine Or.inl ⟨hout, fun htree => ?_⟩
                refine copied_congr (hcopied htree) (fun _ _ _ h => h) fun x _ hx => ?_
                have hapart := ready_apart h hout
                exact content_changes hc' (hc.numbered h.numbered) id fun hin => hapart x hin hx
      | inr hkept =>
          obtain ⟨hsame, hmissing⟩ := hkept
          cases ok with
          | false => exact along_pure () (Or.inr hsame)
          | true =>
              have hrm : Alters umask (fun _ => False) (fun _ => False)
                  (catchOs (rmtree src) (pure ())) (fun _ _ => True) s' :=
                along_catchOs (alters_rmtree_missing (hmissing rfl)) fun _ _ => along_pure () trivial
              apply alters_mono hrm
              · exact fun _ hx => hx.elim
              · exact fun _ hx => hx.elim
              · exact fun _ s'' hc' _ =>
                  Or.inr fun x hx => (unmoved_entry hc' x).trans (hsame x hx)

/-- Nothing is lost in the runs in which each directory that `os.walk` comes to has gone, out
of one that is still there. -/
theorem moveDir_loses_nothing {umask fuel : Nat} {srcdir dstdir : Text} {src : Loc}
    {s₀ s' : World} (hsound : Sound s₀.fs) (hsrc : s₀.fs.locate true srcdir = some src)
    (hdir : s₀.fs.entry src = some .dir) (hcalm : Calm src s₀.fs)
    (hrun : Prog.Returns (posixWhere umask Vacated) (moveDir fuel srcdir dstdir) s₀ (.ok ()) s') :
    LosesNothing src (s₀.fs.placeDir dstdir) s₀.fs s'.fs := by
  intro rel content hvalid hcontent
  cases hplace : s₀.fs.placeDir dstdir with
  | none =>
      have hend := Prog.result_of_returns (@moveDir_unmade (fun _ => False) (fun _ => False) umask
        s₀ srcdir dstdir fuel hplace) hrun
      exact Or.inl (content_changes hend.2 hsound.numbered id id hcontent)
  | some made =>
      have hready := ready_of_sound hsound hdir hcalm hplace
      have hend := Prog.result_of_returns (@moveDir_alters umask fuel srcdir dstdir src made s₀ hready
        (denotes_of_locate hsrc (Or.inl rfl)) fun x hx => by
          rw [hplace] at hx
          exact (Option.some.inj hx).symm) hrun
      obtain ⟨hc, hend⟩ := hend
      cases hend with
      | inl hall =>
          have htree : TreeAt src s₀.fs := fun r r' hr' => entry_above hsound.nested hr'
          exact Or.inr ⟨made, rfl, hall.2 htree rel content hvalid hcontent⟩
      | inr hsame =>
          refine Or.inl (content_of_entry hc hsound.numbered (hsame _ fun hin => ?_) hcontent)
          obtain ⟨ino, he, -⟩ := hcontent
          rw [hready.bare _ hin] at he
          cases he

end

def mailHome : World :=
  worldOf 0o644 ((["home".toList, "mail".toList, "inbox".toList], .file 0) ::
    dirsAt [["home".toList], ["home".toList, "mail".toList], ["jail".toList]])

theorem mailHome_sound : Sound mailHome.fs where
  nested := nested_of_nodes (by decide +kernel)
  numbered := numbered_of_nodes (by simp [mailHome, worldOf, dirsAt])
  cwd := by simp [mailHome, worldOf]

theorem mailHome_calm : Calm ["home".toList] mailHome.fs :=
  fun x t _ => @noLinks_of_nodes mailHome.fs (by decide +kernel) x t

/-- The run in which only what has been moved is looked at. -/
def executeVacated (s : World) : (c : Call) → Option (Res c × World)
  | .islink path => if (s.fs.place path).isSome then some (execute 0o022 s (.islink path)) else none
  | c => some (execute 0o022 s c)

/-- The run in which this directory cannot be made. -/
def executeWithout (dir : Text) (s : World) : (c : Call) → Option (Res c × World)
  | .mkdir path mode =>
      if path = dir then some (.error (.osError 28), s) else some (execute 0o022 s (.mkdir path mode))
  | c => some (execute 0o022 s c)

def returned (end_ : Except Exn Unit × World) : Bool :=
  match end_.1 with
  | .ok _ => true
  | .error _ => false

theorem posix_listable {s s' : World} {c : Call} {r : Res c}
    (h : some (execute 0o022 s c) = some (r, s')) : posixWhere 0o022 Listable s c r s' := by
  refine ⟨posix_of_execute 0o022 s c r s' h, ?_⟩
  cases c with
  | scandir path =>
      cases r with
      | ok entries => exact trivial
      | error e =>
          intro hdir
          have hscan : scanEntries s.fs path = .error e := congrArg Prod.fst (Option.some.inj h)
          obtain ⟨x, hx, hdir⟩ := Option.bind_eq_some_iff.mp hdir
          rw [scanEntries, hx] at hscan
          simp only [if_pos hdir] at hscan
          cases hscan
  | _ => exact trivial

theorem posix_vacated (s : World) (c : Call) (r : Res c) (s' : World)
    (h : executeVacated s c = some (r, s')) : posixWhere 0o022 Vacated s c r s' := by
  cases c with
  | islink path =>
      rw [executeVacated] at h
      split at h
      next hfree => exact ⟨(posix_listable h).1, hfree⟩
      next => cases h
  | _ => exact posix_listable h

theorem posix_without (dir : Text) (s : World) (c : Call) (r : Res c) (s' : World)
    (h : executeWithout dir s c = some (r, s')) : posixWhere 0o022 Listable s c r s' := by
  cases c with
  | mkdir path mode =>
      rw [executeWithout] at h
      split at h
      · cases h
        exact ⟨⟨⟨28, rfl⟩, rfl⟩, trivial⟩
      · exact posix_listable h
  | _ => exact posix_listable h

theorem moveDir_loses_nothing_mail :
    ∃ s', Prog.Returns (posixWhere 0o022 Vacated) (moveDir 9 "/home/".toList "/jail/u/".toList)
        mailHome (.ok ()) s' ∧
      LosesNothing ["home".toList] (mailHome.fs.placeDir "/jail/u/".toList) mailHome.fs s'.fs := by
  have hrun : ((moveDir 9 "/home/".toList "/jail/u/".toList).finish executeVacated mailHome).any
      returned = true := by decide +kernel
  obtain ⟨r, s', hreturns, hok⟩ := Prog.returns_of_any posix_vacated hrun
  cases r with
  | error e => cases hok
  | ok u =>
      exact ⟨s', hreturns, moveDir_loses_nothing mailHome_sound (by decide +kernel)
        (by decide +kernel) mailHome_calm hreturns⟩

/-- The directory in the home directory is not moved, its file is copied to where the name of
the directory is left out, and then all is removed. -/
theorem moveDir_loses_mail :
    Sound mailHome.fs ∧ mailHome.fs.locate true "/home".toList = some ["home".toList] ∧
      Calm ["home".toList] mailHome.fs ∧
      (mailHome.fs.placeDir "/jail/u".toList).isSome ∧
      ∃ s', Prog.Returns (posixWhere 0o022 Listable) (moveDir 9 "/home".toList "/jail/u".toList)
          mailHome (.ok ()) s' ∧
        ¬ LosesNothing ["home".toList] (mailHome.fs.placeDir "/jail/u".toList) mailHome.fs s'.fs := by
  have hrun : ((moveDir 9 "/home".toList "/jail/u".toList).finish
      (executeWithout "/jail/u/mail".toList) mailHome).any
        (fun x => returned x &&
          (x.2.fs.entry ["home".toList, "mail".toList, "inbox".toList]).isNone &&
          (x.2.fs.entry ["jail".toList, "u".toList, "mail".toList, "inbox".toList]).isNone) = true := by
    decide +kernel
  obtain ⟨r, s', hreturns, hcheck⟩ := Prog.returns_of_any (posix_without _) hrun
  simp only [Bool.and_eq_true, Option.isNone_iff_eq_none] at hcheck
  obtain ⟨⟨hok, hsrc⟩, hdst⟩ := hcheck
  refine ⟨mailHome_sound, by decide +kernel, mailHome_calm, by decide +kernel, s', ?_, fun h => ?_⟩
  · cases r with
    | error e => cases hok
    | ok u => exact hreturns
  · cases h ["mail".toList, "inbox".toList] [] (by decide) ⟨0, by decide +kernel, rfl⟩ with
    | inl hkept =>
        obtain ⟨ino, he, -⟩ := hkept
        rw [List.singleton_append, hsrc] at he
        cases he
    | inr hcopied =>
        obtain ⟨D, hD, ino, he, -⟩ := hcopied
        have hplace : mailHome.fs.placeDir "/jail/u".toList = some ["jail".toList, "u".toList] := by
          decide +kernel
        rw [hplace] at hD
        cases hD
        rw [show (["jail".toList, "u".toList] ++ ["mail".toList, "inbox".toList] : Loc) =
          ["jail".toList, "u".toList, "mail".toList, "inbox".toList] from rfl, hdst] at he
        cases he

end Jailkit.Tools
