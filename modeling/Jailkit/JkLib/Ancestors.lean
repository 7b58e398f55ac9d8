import Jailkit.JkLib.JailSafe

/-!
Which directories above a jail `chroot_is_safe` has tested when it returns 1, and for which
paths it returns. Of two slashes at the beginning `os.path.dirname` never gets to the root.
-/
namespace Jailkit.JkLib

open Fs (ValidName isAbsolute)

def TwoSlashes (path : Text) : Prop :=
  path.take 2 = ['/', '/'] ∧ path.take 3 ≠ ['/', '/', '/']

instance (path : Text) : Decidable (TwoSlashes path) := inferInstanceAs (Decidable (_ ∧ _))

/-- What the loop goes over for a path with one slash at the beginning, or with two. -/
def upward (doubled : Bool) (ns : List Text) : Text :=
  if doubled then '/' :: joinPath ns else joinPath ns

/-- The function returns, and not with 1 unless all directories above have been found safe. -/
structure ChecksAncestors (st : Statuses) (cwd path : Text) : Prop where
  returns : ∃ fuel retval, chrootIsSafe st cwd fuel path = some retval
  covers : (∃ fuel, chrootIsSafe st cwd fuel path = some 1) →
    ∀ ns, ns <+: names (osPathAbspath cwd path) → ns ≠ [] → ns ≠ names (osPathAbspath cwd path) →
      pathIsSafe st (joinPath ns) = 1

/-- One of the tests that are made refuses; for the directories above, also for the root, each
result but 1 does. -/
def Refuses (st : Statuses) (path : Text) : Prop :=
  pathIsSafe st path < -1 ∨
    (∃ subd ∈ ["etc", "usr", "var", "bin", "dev", "proc", "sbin", "sys"],
      pathIsSafe st (path ++ '/' :: subd.toList) < -1) ∨
    ∃ ns, ns <+: (names path).dropLast ∧ pathIsSafe st (joinPath ns) ≠ 1

section

variable {st : Statuses} {ns ms : List Text} {n path cwd : Text} {fuel : Nat}

theorem rdropWhile_slashes (t : Text) {c : Char} (hc : c ≠ '/') :
    (t ++ [c] ++ ['/']).rdropWhile (· = '/') = t ++ [c] := by
  rw [List.rdropWhile_concat_pos _ _ _ (by simp), List.rdropWhile_concat_neg _ _ _ (by simp [hc])]

theorem dirname_doubled (h : ∀ m ∈ ns, ValidName m) (hn : '/' ∉ n) :
    dirname ('/' :: joinPath (ns ++ [n])) = '/' :: joinPath ns := by
  have hpath : '/' :: joinPath (ns ++ [n]) = ('/' :: slashed ns) ++ '/' :: n := by
    rw [joinPath, if_neg (by simp)]
    exact congrArg ('/' :: ·) (slashed_snoc ns n)
  rw [hpath, dirname, rdropWhile_slash _ hn, joinPath]
  by_cases hns : ns = []
  · rw [hns]
    rfl
  · obtain ⟨t, c, hlast, hc⟩ := last_slashed h hns
    have hall : ¬ ((('/' :: slashed ns) ++ ['/']).all fun x => x = '/') = true := by
      simp [hlast, hc]
    rw [if_neg hall, if_neg hns, hlast, ← List.cons_append, rdropWhile_slashes _ hc,
      List.cons_append, ← hlast]
    rfl

theorem dirname_upward (doubled : Bool) (h : ∀ m ∈ ns, ValidName m) :
    dirname (upward doubled ns) = upward doubled ns.dropLast := by
  induction ns using List.reverseRecOn with
  | nil =>
      cases doubled with
      | true => rfl
      | false => rfl
  | append_singleton ns n _ =>
      have hns : ∀ m ∈ ns, ValidName m := fun m hm => h m (List.mem_append_left [n] hm)
      have hn : '/' ∉ n := (h n (by simp)).2.2.2
      rw [List.dropLast_concat]
      cases doubled with
      | true => exact dirname_doubled hns hn
      | false =>
          have hpath : joinPath (ns ++ [n]) = slashed ns ++ '/' :: n := by
            rw [joinPath, if_neg (by simp)]
            exact slashed_snoc ns n
          simp only [upward, Bool.false_eq_true, if_false]
          rw [hpath, dirname_slashed hns hn]

theorem pathIsSafe_upward (doubled : Bool) (ns : List Text) :
    pathIsSafe st (upward doubled ns) = pathIsSafe st (joinPath ns) := by
  cases doubled with
  | true => rw [pathIsSafe, upward, if_pos rfl, names_cons_slash, pathIsSafe]
  | false => rfl

theorem upward_ne_root (h : ∀ m ∈ ns, ValidName m) {doubled : Bool}
    (hne : doubled = true ∨ ns ≠ []) : upward doubled ns ≠ ['/'] := by
  cases doubled with
  | true =>
      intro heq
      have hnil : joinPath ns = [] := (List.cons.inj heq).2
      have hlen := length_le_joinPath ns
      rw [hnil, List.length_nil, Nat.le_zero, List.length_eq_zero_iff] at hlen
      rw [hlen] at hnil
      cases hnil
  | false => exact joinPath_ne_root h (hne.resolve_left (by simp))

/-- Of one slash the loop comes to the root. -/
theorem parentLoop_single (h : ∀ m ∈ ns, ValidName m) (hfuel : ns.length < fuel) :
    ∃ retval, parentLoop st fuel (upward false ns) = some retval := by
  induction fuel generalizing ns with
  | zero => omega
  | succ fuel ih =>
      rw [parentLoop]
      by_cases hroot : upward false ns = ['/']
      · exact ⟨1, if_pos hroot⟩
      · rw [if_neg hroot]
        dsimp only
        split
        · exact ⟨_, rfl⟩
        · have hne : ns ≠ [] := fun hnil => hroot (by rw [hnil]; rfl)
          have hpos := List.length_pos_iff.mpr hne
          rw [dirname_upward false h]
          exact ih (fun m hm => h m (List.dropLast_subset ns hm)) (by rw [List.length_dropLast]; omega)

theorem parentLoop_covers (h : ∀ m ∈ ns, ValidName m) (hone : parentLoop st fuel (upward false ns) = some 1)
    (hms : ms <+: ns) (hne : ms ≠ []) : pathIsSafe st (joinPath ms) = 1 := by
  induction fuel generalizing ns with
  | zero => cases hone
  | succ fuel ih =>
      have hns : ns ≠ [] := fun hnil => hne (List.prefix_nil.mp (hnil ▸ hms))
      rw [parentLoop, if_neg (upward_ne_root h (Or.inr hns))] at hone
      dsimp only at hone
      split at hone
      next hunsafe => exact absurd (Option.some.inj hone) hunsafe
      next hsafe =>
        rw [dirname_upward false h] at hone
        by_cases heq : ms = ns
        · rw [heq]
          exact Classical.not_not.mp hsafe
        · obtain ⟨init, n, hsnoc⟩ := List.eq_nil_or_concat ns |>.resolve_left hns
          rw [hsnoc, List.concat_eq_append] at hms heq
          have hinit := (List.prefix_concat_iff.mp hms).resolve_left heq
          refine ih (fun m hm => h m (List.dropLast_subset ns hm)) hone ?_
          rwa [hsnoc, List.concat_eq_append, List.dropLast_concat]

/-- Of two slashes the loop only ends where a test refuses. -/
theorem parentLoop_doubled_iff (h : ∀ m ∈ ns, ValidName m) :
    (∃ fuel retval, parentLoop st fuel (upward true ns) = some retval) ↔
      ∃ ms, ms <+: ns ∧ pathIsSafe st (joinPath ms) ≠ 1 := by
  constructor
  · intro hends
    obtain ⟨fuel, retval, hends⟩ := hends
    induction fuel generalizing ns with
    | zero => cases hends
    | succ fuel ih =>
        rw [parentLoop, if_neg (upward_ne_root h (Or.inl rfl))] at hends
        dsimp only at hends
        split at hends
        next hunsafe =>
          rw [pathIsSafe_upward] at hunsafe
          exact ⟨ns, List.prefix_rfl, hunsafe⟩
        next =>
          rw [dirname_upward true h] at hends
          obtain ⟨ms, hms, hunsafe⟩ := ih (fun m hm => h m (List.dropLast_subset ns hm)) hends
          exact ⟨ms, hms.trans (List.dropLast_prefix ns), hunsafe⟩
  · intro hunsafe
    obtain ⟨ms, hms, hunsafe⟩ := hunsafe
    obtain ⟨k, hk⟩ : ∃ k, k = ns.length - ms.length := ⟨_, rfl⟩
    refine ⟨k + 1, ?_⟩
    induction k generalizing ns with
    | zero =>
        have heq : ms = ns := hms.eq_of_length (by have := hms.length_le; omega)
        rw [parentLoop, if_neg (upward_ne_root h (Or.inl rfl))]
        dsimp only
        rw [if_pos (by rwa [pathIsSafe_upward, ← heq])]
        exact ⟨_, rfl⟩
    | succ k ih =>
        rw [parentLoop, if_neg (upward_ne_root h (Or.inl rfl))]
        dsimp only
        split
        · exact ⟨_, rfl⟩
        · rw [dirname_upward true h]
          have hlt : ms.length < ns.length := by omega
          obtain ⟨init, n, hsnoc⟩ := List.eq_nil_or_concat ns |>.resolve_left fun hnil => by
            rw [hnil] at hlt
            simp at hlt
          rw [hsnoc, List.concat_eq_append] at hms hlt
          have hinit := (List.prefix_concat_iff.mp hms).resolve_left fun heq => by
            rw [heq] at hlt
            omega
          refine ih (fun m hm => h m (List.dropLast_subset ns hm)) ?_ ?_
          · rwa [hsnoc, List.concat_eq_append, List.dropLast_concat]
          · rw [List.length_dropLast]
            omega

theorem parentLoop_doubled_ne (h : ∀ m ∈ ns, ValidName m) :
    parentLoop st fuel (upward true ns) ≠ some 1 := by
  induction fuel generalizing ns with
  | zero => exact nofun
  | succ fuel ih =>
      rw [parentLoop, if_neg (upward_ne_root h (Or.inl rfl))]
      dsimp only
      split
      next hunsafe => exact fun hone => hunsafe (Option.some.inj hone)
      next =>
        rw [dirname_upward true h]
        exact ih fun m hm => h m (List.dropLast_subset ns hm)

/-- What `normpath` makes of an absolute path keeps two slashes and no more. -/
theorem normpath_upward (h : isAbsolute path = true) :
    normpath path = upward (decide (TwoSlashes path)) (names path) := by
  have hhead : path.head? = some '/' := of_decide_eq_true h
  have hone : '/' :: joinSlash (names path) = joinPath (names path) := by
    rw [joinPath]
    split
    next hnil => rw [hnil]; rfl
    next hnil => exact slash_joinSlash hnil
  have hne : path ≠ [] := fun hnil => by
    rw [hnil] at hhead
    cases hhead
  rw [normpath, if_neg hne, h]
  simp only [initialSlashes, hhead, if_true, upward, decide_eq_true_eq]
  by_cases htwo : TwoSlashes path
  · rw [if_pos htwo, ← hone, if_pos (show _ ∧ _ from htwo)]
    rfl
  · rw [if_neg htwo, ← hone, if_neg (show ¬ (_ ∧ _) from htwo)]
    rfl

theorem twoSlashes_join (hcwd : cwd.head? = some '/') (hone : cwd.take 2 ≠ ['/', '/']) :
    TwoSlashes (osPathJoin cwd path) ↔ TwoSlashes path := by
  rw [osPathJoin]
  split
  · exact Iff.rfl
  next hhead =>
    have hnot : ¬ TwoSlashes path := by
      intro htwo
      have htake := List.head?_take (l := path) (i := 2)
      rw [htwo.1, if_neg (by omega)] at htake
      exact hhead htake.symm
    refine iff_of_false ?_ hnot
    obtain ⟨rest, hrest⟩ : ∃ rest, cwd = '/' :: rest := ⟨cwd.tail, List.eq_cons_of_mem_head? hcwd⟩
    cases rest with
    | nil =>
        rw [hrest, if_pos (by simp)]
        intro htwo
        apply hhead
        cases path with
        | nil => simp [TwoSlashes] at htwo
        | cons c t => simpa [TwoSlashes] using htwo.1
    | cons d t =>
        have hd : d ≠ '/' := fun heq => hone (by rw [hrest, heq]; rfl)
        rw [hrest]
        split
        · exact fun htwo => hd (by simpa using htwo.1)
        · exact fun htwo => hd (by simpa using htwo.1)

theorem isAbsolute_join (hcwd : cwd.head? = some '/') : isAbsolute (osPathJoin cwd path) = true := by
  apply decide_eq_true
  rw [osPathJoin]
  split
  next hhead => exact hhead
  next =>
    split
    · rw [List.head?_append, hcwd]
      rfl
    · rw [List.head?_append, hcwd]
      rfl

theorem chrootIsSafe_returns_iff :
    (∃ fuel retval, chrootIsSafe st cwd fuel path = some retval) ↔
      pathIsSafe st (osPathAbspath cwd path) < -1 ∨
        (∃ subd ∈ ["etc", "usr", "var", "bin", "dev", "proc", "sbin", "sys"],
          pathIsSafe st (osPathAbspath cwd path ++ '/' :: subd.toList) < -1) ∨
        ∃ fuel retval, parentLoop st fuel (dirname (osPathAbspath cwd path)) = some retval := by
  simp only [chrootIsSafe]
  generalize osPathAbspath cwd path = p
  by_cases hself : pathIsSafe st p < -1
  · simp only [hself, if_true, true_or, iff_true]
    exact ⟨0, _, rfl⟩
  · simp only [hself, if_false, false_or]
    cases hsubds : subdLoop st p ["etc", "usr", "var", "bin", "dev", "proc", "sbin", "sys"] with
    | some retval =>
        refine iff_of_true ⟨0, retval, rfl⟩ (Or.inl ?_)
        by_contra hnone
        simp only [not_exists, not_and, Int.not_lt] at hnone
        rw [(subdLoop_none_iff _).mpr hnone] at hsubds
        cases hsubds
    | none =>
        have hall := (subdLoop_none_iff _).mp hsubds
        refine (or_iff_right fun hsubd => ?_).symm
        obtain ⟨subd, hmem, hlt⟩ := hsubd
        exact absurd (hall subd hmem) (by omega)

theorem parentLoop_of_chrootIsSafe (h : chrootIsSafe st cwd fuel path = some 1) :
    parentLoop st fuel (dirname (osPathAbspath cwd path)) = some 1 := by
  simp only [chrootIsSafe] at h
  split at h
  next hself => exact absurd (Option.some.inj h) (by omega)
  next =>
    split at h
    next retval hsubds =>
      have hlt := subdLoop_some hsubds
      rw [Option.some.inj h] at hlt
      omega
    next => exact h

end

/-- For a path with two slashes at the beginning it depends on a test that refuses whether the
function returns at all. -/
theorem chrootIsSafe_checks_iff (st : Statuses) (cwd path : Text) (hcwd : cwd.head? = some '/')
    (hone : cwd.take 2 ≠ ['/', '/']) :
    ChecksAncestors st cwd path ↔ ¬ TwoSlashes path ∨ Refuses st (osPathAbspath cwd path) := by
  have hvalid := names_valid (osPathJoin cwd path)
  have hinit : ∀ m ∈ (names (osPathJoin cwd path)).dropLast, ValidName m :=
    fun m hm => hvalid m (List.dropLast_subset _ hm)
  have habs := @isAbsolute_join path cwd hcwd
  have hnames : names (osPathAbspath cwd path) = names (osPathJoin cwd path) := names_normpath habs
  have hpath : osPathAbspath cwd path =
      upward (decide (TwoSlashes path)) (names (osPathJoin cwd path)) := by
    rw [osPathAbspath, normpath_upward habs, decide_eq_decide.mpr (twoSlashes_join hcwd hone)]
  have hparents : dirname (osPathAbspath cwd path) =
      upward (decide (TwoSlashes path)) (names (osPathJoin cwd path)).dropLast := by
    rw [hpath, dirname_upward _ hvalid]
  by_cases htwo : TwoSlashes path
  · rw [decide_eq_true htwo] at hparents
    constructor
    · intro h
      obtain hself | hsubd | hloop := chrootIsSafe_returns_iff.mp h.returns
      · exact Or.inr (Or.inl hself)
      · exact Or.inr (Or.inr (Or.inl hsubd))
      · rw [hparents, parentLoop_doubled_iff hinit, ← hnames] at hloop
        exact Or.inr (Or.inr (Or.inr hloop))
    · intro h
      refine ⟨chrootIsSafe_returns_iff.mpr ?_, fun hsafe => ?_⟩
      · obtain hself | hsubd | hloop := h.resolve_left (not_not_intro htwo)
        · exact Or.inl hself
        · exact Or.inr (Or.inl hsubd)
        · rw [hnames, ← parentLoop_doubled_iff hinit, ← hparents] at hloop
          exact Or.inr (Or.inr hloop)
      · obtain ⟨fuel, hsafe⟩ := hsafe
        have hloop := parentLoop_of_chrootIsSafe hsafe
        rw [hparents] at hloop
        exact absurd hloop (parentLoop_doubled_ne hinit)
  · rw [decide_eq_false htwo] at hparents
    refine iff_of_true ⟨chrootIsSafe_returns_iff.mpr ?_, fun hsafe => ?_⟩ (Or.inl htwo)
    · rw [hparents]
      exact Or.inr (Or.inr ⟨_, parentLoop_single hinit (Nat.lt_succ_self _)⟩)
    · obtain ⟨fuel, hsafe⟩ := hsafe
      have hloop := parentLoop_of_chrootIsSafe hsafe
      rw [hparents] at hloop
      intro ns hns hne hproper
      rw [hnames] at hns hproper
      refine parentLoop_covers hinit hloop ?_ hne
      cases List.eq_nil_or_concat (names (osPathJoin cwd path)) with
      | inl hnil =>
          rw [hnil] at hns
          exact absurd (List.prefix_nil.mp hns) hne
      | inr hsnoc =>
          obtain ⟨init, n, hsnoc⟩ := hsnoc
          rw [hsnoc, List.concat_eq_append] at hns hproper ⊢
          rw [List.dropLast_concat]
          exact (List.prefix_concat_iff.mp hns).resolve_left hproper

def rootsOwn : Statuses := ⟨fun _ => some ⟨0o40755, 0, 0⟩, fun _ => []⟩

theorem chrootIsSafe_checks_iff_jail :
    ChecksAncestors rootsOwn "/root".toList "/home/jail".toList ↔
      ¬ TwoSlashes "/home/jail".toList ∨
        Refuses rootsOwn (osPathAbspath "/root".toList "/home/jail".toList) :=
  chrootIsSafe_checks_iff rootsOwn "/root".toList "/home/jail".toList (by decide) (by decide)

/-- The jail is given with two slashes, and the test of it does not end. -/
theorem chrootIsSafe_goes_on : ¬ ChecksAncestors rootsOwn "/root".toList "//home/jail".toList := by
  intro h
  have hsafe : ∀ path, pathIsSafe rootsOwn path = 1 := fun _ => rfl
  obtain hself | hsubd | hloop := chrootIsSafe_returns_iff.mp h.returns
  · rw [hsafe] at hself
    omega
  · obtain ⟨subd, -, hlt⟩ := hsubd
    rw [hsafe] at hlt
    omega
  · have hup : dirname (osPathAbspath "/root".toList "//home/jail".toList) =
        upward true ["home".toList] := by decide +kernel
    rw [hup, parentLoop_doubled_iff (by decide)] at hloop
    obtain ⟨ms, -, hne⟩ := hloop
    exact hne (hsafe _)

end Jailkit.JkLib
