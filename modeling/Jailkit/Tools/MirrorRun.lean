import Jailkit.Tools.Mirroring
import Mathlib.Logic.Relation

/-!
A jail that is built by calls of `create_parent_path`, one after the other, from an empty
directory.
-/
namespace Jailkit.Tools

open JkLib Raising
open Fs (ValidName Grows Walks DirsTo isAbsolute components)

/-- The jail before the first call. Its path is in normal form, without a slash at the end,
and goes through directories only. -/
structure EmptyJail (chroot : Text) (s : World) : Prop where
  normal : chroot = joinPath (names chroot)
  named : names chroot ≠ []
  dirs : DirsTo s.fs.entry (names chroot)
  empty : ∀ x, x ≠ [] → s.fs.entry (names chroot ++ x) = none
  cache : CacheRight s

/-- One call for a directory of the real system. -/
def Creates (umask n : Nat) (chroot : Text) (s s' : World) : Prop :=
  ∃ path l o r, NamesDir s.fs path l ∧
    Prog.Returns (MirrorStep umask chroot) (createParentPath n chroot path o) s r s'

section

variable {umask n : Nat} {chroot path : Text} {s s' : World} {fs fs' : Fs} {C l : Loc}

theorem mirrors_empty (h : EmptyJail chroot s) : Mirrors (names chroot) s := by
  refine ⟨h.dirs, fun x e hx => ?_, h.cache⟩
  by_cases hnil : x = []
  · rw [hnil, jailed, List.append_nil, h.dirs _ (List.prefix_refl _)] at hx
    cases hx
    rw [hnil]
    exact Fs.entry_root s.fs
  · rw [jailed, h.empty x hnil] at hx
    cases hx

theorem namesDir_walks (h : NamesDir fs path l) :
    ∃ k, k ≤ Fs.maxSymlinks ∧ Walks fs.entry Mirrorable k [] (names path) l := by
  obtain ⟨k, hk, hway⟩ := h.walks
  exact ⟨k, hk, (walks_names h.down).mp hway⟩

theorem namesDir_grows (h : NamesDir fs path l) (hfs : Grows fs fs') : NamesDir fs' path l := by
  obtain ⟨k, hk, hway⟩ := h.walks
  exact ⟨h.absolute, h.down, k, hk, Fs.walks_mono hway hfs.entry fun _ _ hok => hok⟩

/-- What one call returns, and how it leaves the jail. -/
theorem createParentPath_returns {o : ParentOptions} {r : Except Exn (Option Text)}
    (hnormal : chroot = joinPath (names chroot)) (hnamed : names chroot ≠ [])
    (hm : Mirrors (names chroot) s) (hn : Fs.maxSymlinks < n) (hpath : NamesDir s.fs path l)
    (hrun : Prog.Returns (MirrorStep umask chroot) (createParentPath n chroot path o) s r s') :
    ∃ ret k, r = .ok (some ret) ∧ k ≤ Fs.maxSymlinks ∧ Grows s.fs s'.fs ∧
      Stage (names chroot) s' l ret (names path) [] l k 0 := by
  obtain ⟨k, hk, hway⟩ := namesDir_walks hpath
  have hmakes : MakesTarget umask (names chroot) n fun path =>
      createParentPath n (joinPath (names chroot)) path o :=
    createParentPath_ends hnamed (names_valid chroot) n o
  have hends := hmakes path s k l (by omega) hk hm hpath.absolute hway
  dsimp only at hends
  rw [← hnormal] at hends
  have hresult := Prog.result_of_returns hends hrun
  cases r with
  | error e => exact hresult.elim
  | ok r =>
      obtain ⟨ret, rfl, hstage, hgrows⟩ := hresult
      exact ⟨ret, k, rfl, hk, hgrows, hstage⟩

theorem creates_mirrors (hnormal : chroot = joinPath (names chroot)) (hnamed : names chroot ≠ [])
    (hn : Fs.maxSymlinks < n) (hm : Mirrors (names chroot) s)
    (h : Creates umask n chroot s s') : Mirrors (names chroot) s' ∧ Grows s.fs s'.fs := by
  obtain ⟨path, l, o, r, hpath, hrun⟩ := h
  obtain ⟨ret, k, -, -, hgrows, hstage⟩ := createParentPath_returns hnormal hnamed hm hn hpath hrun
  exact ⟨hstage.mirrors, hgrows⟩

theorem built_mirrors {s₀ : World} (h : EmptyJail chroot s₀) (hn : Fs.maxSymlinks < n)
    (hbuilt : Relation.ReflTransGen (Creates umask n chroot) s₀ s) :
    Mirrors (names chroot) s := by
  induction hbuilt with
  | refl => exact mirrors_empty h
  | tail _ hstep ih => exact (creates_mirrors h.normal h.named hn ih hstep).1

/-- A path of directories with or without a slash at the end. -/
theorem resolve_placed {done : List Text} {ret : Text} {x : Loc} {k : Nat} (hne : C ≠ [])
    (hvalid : ∀ c ∈ C ++ x, ValidName c) (h : Placed C fs done ret x k) :
    fs.resolve true ret = some (C ++ x) := by
  have hdir := h.dirs (C ++ x) (List.prefix_refl _)
  have hsome : (fs.entry (C ++ x)).isSome := by
    rw [hdir]
    rfl
  refine Fs.resolve_eq_some.mpr ⟨?_, hsome⟩
  cases h.text with
  | inl htext =>
      rw [htext]
      exact locate_dirs_follow (by simp [hne]) hvalid h.dirs
  | inr htext =>
      have hto : Walks fs.entry Mirrorable 0 [] (C ++ x) ([] ++ (C ++ x)) :=
        Fs.walks_dirs (fun c hc => Fs.named_of_valid (hvalid c hc)) h.dirs
      have hall : Walks fs.entry Mirrorable 0 [] (components ret) (C ++ x) := by
        rw [htext, Fs.components_slash_end, components_joinPath hvalid (by simp [hne])]
        exact .stay (Or.inl rfl) (Fs.walks_append hto (.stay (Or.inl rfl) (.here hdir)))
      have habs : isAbsolute ret = true := by
        rw [htext, joinPath_slashed (by simp [hne])]
        obtain ⟨c, cs, rfl⟩ := List.exists_cons_of_ne_nil hne
        rfl
      exact Fs.locate_walks habs hall (Nat.zero_le _)

/-- In a jail that has been built by such calls, a call for a directory returns a directory
of the jail, to which the path leads a process whose root is the jail, and the same call
again finds it and leaves the file system as it is. -/
theorem createParentPath_mirrors {umask n : Nat} {chroot path : Text} {o : ParentOptions}
    {s₀ s s' : World} {r : Except Exn (Option Text)} {l : Loc} (hjail : EmptyJail chroot s₀)
    (hn : Fs.maxSymlinks < n)
    (hbuilt : Relation.ReflTransGen (Creates umask n chroot) s₀ s) (hpath : NamesDir s.fs path l)
    (hrun : Prog.Returns (MirrorStep umask chroot) (createParentPath n chroot path o) s r s') :
    ∃ ret, r = .ok (some ret) ∧ s'.fs.resolve true ret = some (names chroot ++ l) ∧
      s'.fs.entry (names chroot ++ l) = some .dir ∧
      (s'.fs.chrooted (names chroot)).resolve true path = some l ∧
      ∀ r₂ s₂, Prog.Returns (MirrorStep umask chroot) (createParentPath n chroot path o) s' r₂ s₂ →
        (∃ ret₂, r₂ = .ok (some ret₂)) ∧ s₂.fs = s'.fs := by
  have hm := built_mirrors hjail hn hbuilt
  obtain ⟨ret, k, hret, hk, -, hstage⟩ :=
    createParentPath_returns hjail.normal hjail.named hm hn hpath hrun
  have hvalid := valid_append (names_valid chroot) (stage_valid hstage)
  have hC := hstage.placed.dirs _ (List.prefix_append _ _)
  have hdir := hstage.placed.dirs _ (List.prefix_refl _)
  refine ⟨ret, hret, resolve_placed hjail.named hvalid hstage.placed, hdir, ?_, ?_⟩
  · have hway : Walks (s'.fs.chrooted (names chroot)).entry Mirrorable k [] (components path) l := by
      apply Fs.walks_mono ((walks_names hpath.down).mpr hstage.placed.walks)
      · intro x e hx
        rwa [Fs.entry_chrooted hC]
      · exact fun _ _ hok => hok
    refine Fs.resolve_eq_some.mpr ⟨Fs.locate_walks hpath.absolute hway hk, ?_⟩
    rw [Fs.entry_chrooted hC, hdir]
    rfl
  · intro r₂ s₂ hagain
    have hfinds : Ends umask (joinPath (names chroot))
        (createParentPath n (joinPath (names chroot)) path o)
        (fun r s₂ => (∃ ret, r = some ret) ∧ s₂.fs = s'.fs) s' :=
      createParentPath_finds hjail.named (names_valid chroot) n o (by omega) hk hstage.mirrors
        hpath.absolute hstage.placed.walks
    rw [← hjail.normal] at hfinds
    have hresult := Prog.result_of_returns hfinds hagain
    cases r₂ with
    | error e => exact hresult.elim
    | ok r₂ =>
        obtain ⟨⟨ret₂, rfl⟩, hsame⟩ := hresult
        exact ⟨⟨ret₂, rfl⟩, hsame⟩

end

instance (chroot : Text) (s : World) (c : Call) (r : Res c) :
    Decidable (MirrorSafe chroot s c r) :=
  match c, r with
  | .readlink (.walk _) ret, .ok realpath =>
      inferInstanceAs (Decidable (DirsTo s.fs.entry (names (landing chroot ret realpath))))
  | .readlink (.walk _) _, .error _ | .readlink .source _, _ | .readlink .dest _, _
  | .readlink .parent _, _ => inferInstanceAs (Decidable True)
  | .mkdir path _, _ => inferInstanceAs (Decidable (s.fs.lookup false path = none))
  | .symlink _ path, _ => inferInstanceAs (Decidable (s.fs.lookup false path = none))
  | .cacheGet _ _, _ | .cacheSet _ _, _ | .listContains _ _, _ | .listAppend _ _, _ | .lstat _ _, _
  | .lstatSize _, _ | .stat _, _ | .exists _, _ | .islink _, _ | .openRead _, _ | .listdir _, _
  | .scandir _, _ | .link _ _, _ | .copyfile _ _, _ | .writeFile _ _ _, _ | .utime _ _ _, _
  | .chown _ _ _, _ | .chmod _ _, _ | .unlink _, _ | .mknod _ _ _ _, _ | .rmtree _, _ | .glob _, _
  | .lddlistLibraries _, _ => inferInstanceAs (Decidable True)

/-- The answers of a run in which the code gets what it relies on. -/
def executeMirror (umask : Nat) (chroot : Text) (s : World) (c : Call) : Option (Res c × World) :=
  if MirrorSafe chroot s c (execute umask s c).1 then some (execute umask s c) else none

theorem mirrorStep_executeMirror (umask : Nat) (chroot : Text) (s : World) (c : Call) (r : Res c)
    (s' : World) (h : executeMirror umask chroot s c = some (r, s')) :
    MirrorStep umask chroot s c r s' := by
  simp only [executeMirror, Option.ite_none_right_eq_some, Option.some.injEq] at h
  obtain ⟨hsafe, heq⟩ := h
  rw [heq] at hsafe
  exact ⟨heq, hsafe⟩

def linkedDirs : World :=
  worldOf 0o644 ((["a".toList], .symlink "b".toList) ::
    dirsAt [["jail".toList], ["b".toList], ["b".toList, "new".toList]])

theorem empty_of_nodes {fs : Fs} {C : Loc} (h : ∀ y ∈ fs.nodes, C <+: y.1 → y.1 = C) :
    ∀ x, x ≠ [] → fs.entry (C ++ x) = none := by
  intro x hx
  cases he : fs.entry (C ++ x) with
  | none => rfl
  | some e =>
      have hsome : (fs.nodes.lookup (C ++ x)).isSome := by
        rw [Fs.entry, if_neg (by simp [hx])] at he
        rw [he]
        rfl
      obtain ⟨y, hy, heq⟩ := (Fs.lookup_isSome_iff _ _).mp hsome
      have hsame := h y hy (heq ▸ List.prefix_append C x)
      rw [heq] at hsame
      exact absurd (List.append_right_eq_self.mp hsame) hx

theorem emptyJail_linkedDirs : EmptyJail "/jail".toList linkedDirs where
  normal := by decide +kernel
  named := by decide +kernel
  dirs := by decide +kernel
  empty := empty_of_nodes (by decide +kernel)
  cache := fun _ _ h => by cases h

theorem namesDir_link {fs : Fs} {path : Text} {cs : List Text} (habs : isAbsolute path = true)
    (hpath : components path = [] :: "a".toList :: cs) (hcs : ∀ c ∈ cs, ValidName c)
    (hlink : fs.entry ["a".toList] = some (.symlink "b".toList))
    (hdirs : DirsTo fs.entry ("b".toList :: cs)) : NamesDir fs path ("b".toList :: cs) := by
  have hall : ∀ c ∈ "b".toList :: cs, Fs.Named c := by
    intro c hc
    apply Fs.named_of_valid
    cases List.mem_cons.mp hc with
    | inl heq =>
        rw [heq]
        decide
    | inr hmem => exact hcs c hmem
  have hto : Walks fs.entry Mirrorable 0 [] ("b".toList :: cs) ([] ++ "b".toList :: cs) :=
    Fs.walks_dirs hall hdirs
  refine ⟨habs, ?_, 1, by decide, ?_⟩
  · rw [hpath]
    intro h
    have hmem : ['.', '.'] ∈ cs := by simpa using h
    exact (hcs _ hmem).2.2.1 rfl
  · rw [hpath]
    refine .stay (Or.inl rfl) (.follow ?_ (Fs.entry_root fs) hlink ?_ ?_ hto)
    · exact Fs.named_of_valid (by decide)
    · decide
    · decide +kernel

def oneOption : ParentOptions := ⟨true, false, false⟩

/-- The call for `/a` makes the symlink and what it leads to, the one for `/a/new` goes on from
there, and the same one again changes nothing. -/
theorem createParentPath_mirrors_link :
    ∃ s₁ s₂ s₃ r r₃, Creates 0o022 50 "/jail".toList linkedDirs s₁ ∧
      Prog.Returns (MirrorStep 0o022 "/jail".toList)
        (createParentPath 50 "/jail".toList "/a/new".toList oneOption) s₁ r s₂ ∧
      s₂.fs.entry ["jail".toList, "a".toList] = some (.symlink "b".toList) ∧
      (s₂.fs.chrooted ["jail".toList]).resolve true "/a/new".toList =
        some ["b".toList, "new".toList] ∧
      Prog.Returns (MirrorStep 0o022 "/jail".toList)
        (createParentPath 50 "/jail".toList "/a/new".toList oneOption) s₂ r₃ s₃ ∧
      (∃ ret, r₃ = .ok (some ret)) ∧ s₃.fs = s₂.fs := by
  have hpath : NamesDir linkedDirs.fs "/a".toList ["b".toList] :=
    namesDir_link rfl (by decide +kernel) (by simp) (by decide +kernel) (by decide +kernel)
  have hnew : NamesDir linkedDirs.fs "/a/new".toList ["b".toList, "new".toList] :=
    namesDir_link rfl (by decide +kernel) (by decide) (by decide +kernel) (by decide +kernel)
  have hjail : names "/jail".toList = ["jail".toList] := by decide +kernel
  have hrun : ((createParentPath 50 "/jail".toList "/a".toList oneOption).finish
      (executeMirror 0o022 "/jail".toList) linkedDirs).any (fun x =>
        ((createParentPath 50 "/jail".toList "/a/new".toList oneOption).finish
          (executeMirror 0o022 "/jail".toList) x.2).any fun y =>
            decide (y.2.fs.entry ["jail".toList, "a".toList] = some (.symlink "b".toList)) &&
              ((createParentPath 50 "/jail".toList "/a/new".toList oneOption).finish
                (executeMirror 0o022 "/jail".toList) y.2).any fun _ => true) = true := by
    decide +kernel
  obtain ⟨r₁, s₁, hfirst, hrest⟩ :=
    Prog.returns_of_any (mirrorStep_executeMirror 0o022 "/jail".toList) hrun
  obtain ⟨r₂, s₂, hsecond, hcheck⟩ :=
    Prog.returns_of_any (mirrorStep_executeMirror 0o022 "/jail".toList) hrest
  simp only [Bool.and_eq_true, decide_eq_true_eq] at hcheck
  obtain ⟨hlink, hrest⟩ := hcheck
  obtain ⟨r₃, s₃, hthird, -⟩ :=
    Prog.returns_of_any (mirrorStep_executeMirror 0o022 "/jail".toList) hrest
  have hcreates : Creates 0o022 50 "/jail".toList linkedDirs s₁ := ⟨_, _, _, r₁, hpath, hfirst⟩
  have hempty := emptyJail_linkedDirs
  have hgrows := (creates_mirrors hempty.normal hempty.named (by decide) (mirrors_empty hempty)
    hcreates).2
  obtain ⟨ret, -, -, -, hresolve, hagain⟩ := createParentPath_mirrors hempty (by decide)
    (.single hcreates) (namesDir_grows hnew hgrows) hsecond
  rw [hjail] at hresolve
  obtain ⟨hret, hsame⟩ := hagain r₃ s₃ hthird
  exact ⟨s₁, s₂, s₃, r₂, r₃, hcreates, hsecond, hlink, hresolve, hthird, hret, hsame⟩

def Executes (umask : Nat) : Prog.Machine Call Res World :=
  fun s c r s' => execute umask s c = (r, s')

/-- Where the jail has the directory behind the symlink, and not the symlink, what is there
is made once more. -/
theorem createParentPath_raises_eexist :
    ∃ s₁ s₂, EmptyJail "/jail".toList linkedDirs ∧
      linkedDirs.fs.resolve true "/b/new".toList = some ["b".toList, "new".toList] ∧
      Prog.Returns (Executes 0o022)
        (createParentPath 50 "/jail".toList "/b/new".toList oneOption) linkedDirs
        (.ok (some "/jail/b/new".toList)) s₁ ∧
      NamesDir s₁.fs "/a/new".toList ["b".toList, "new".toList] ∧
      Prog.Returns (Executes 0o022)
        (createParentPath 50 "/jail".toList "/a/new".toList oneOption) s₁
        (.error (.osError 17)) s₂ := by
  have hrun : ((createParentPath 50 "/jail".toList "/b/new".toList oneOption).finish
      (fun s c => some (execute 0o022 s c)) linkedDirs).any (fun x =>
        decide (x.1 = .ok (some "/jail/b/new".toList)) &&
          (decide (x.2.fs.entry ["a".toList] = some (.symlink "b".toList)) &&
            (decide (DirsTo x.2.fs.entry ["b".toList, "new".toList]) &&
              ((createParentPath 50 "/jail".toList "/a/new".toList oneOption).finish
                (fun s c => some (execute 0o022 s c)) x.2).any fun y =>
                  decide (y.1 = .error (.osError 17))))) = true := by decide +kernel
  have hexact : ∀ s c r s', some (execute 0o022 s c) = some (r, s') → Executes 0o022 s c r s' :=
    fun _ _ _ _ h => Option.some.inj h
  obtain ⟨r₁, s₁, hfirst, hcheck⟩ := Prog.returns_of_any hexact hrun
  simp only [Bool.and_eq_true, decide_eq_true_eq] at hcheck
  obtain ⟨hok, hlink, hdirs, hrest⟩ := hcheck
  obtain ⟨r₂, s₂, hsecond, hraises⟩ := Prog.returns_of_any hexact hrest
  have hraises : r₂ = .error (.osError 17) := of_decide_eq_true hraises
  subst hok hraises
  have hnew : NamesDir s₁.fs "/a/new".toList ["b".toList, "new".toList] :=
    namesDir_link rfl (by decide +kernel) (by decide) hlink hdirs
  exact ⟨s₁, s₂, emptyJail_linkedDirs, by decide +kernel, hfirst, hnew, hsecond⟩

end Jailkit.Tools
