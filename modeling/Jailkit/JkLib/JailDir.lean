import Jailkit.JkLib.Strings

/-!
Where `getjaildir` splits a home directory, and what `dirs_equal` accepts.
-/
namespace Jailkit

/-- The separator between a jail and the home in it. -/
def jailSep : Text := ['/', '.', '/']

theorem eq_take_of_last {a b : Text} {c : Char} (hlen : a.length + 1 = b.length)
    (hlast : b.getLast? = some c) : a = b.take a.length ↔ b = a ++ [c] := by
  constructor
  · intro h
    have hb := List.dropLast_append_getLast? c hlast
    rw [List.dropLast_eq_take, ← hlen, Nat.add_sub_cancel, ← h] at hb
    exact hb.symm
  · intro h
    rw [h, List.take_left]

/-- `dirs_equal`: the same name, or one of the two has one slash more at its end. -/
theorem dirsEqual_iff (a b : Text) :
    dirsEqual a b = true ↔
      a = b ∨ (b = a ++ ['/'] ∧ a.getLast? ≠ some '/') ∨
        (a = b ++ ['/'] ∧ b.getLast? ≠ some '/') := by
  unfold dirsEqual
  split
  next hlen =>
    rw [beq_iff_eq]
    refine ⟨Or.inl, fun h => ?_⟩
    rcases h with h | ⟨h, -⟩ | ⟨h, -⟩
    · exact h
    · simp [h] at hlen
    · simp [h] at hlen
  next hlen =>
    have hab : a ≠ b := fun h => hlen (congrArg List.length h)
    split
    next hlong =>
      obtain ⟨hlong, ha, hb⟩ := hlong
      rw [beq_iff_eq, eq_take_of_last hlong hb]
      refine ⟨fun h => Or.inr (Or.inl ⟨h, ha⟩), fun h => ?_⟩
      rcases h with h | ⟨h, -⟩ | ⟨h, -⟩
      · exact absurd h hab
      · exact h
      · simp [h] at hlong
        omega
    next hlong =>
      split
      next hshort =>
        obtain ⟨hshort, ha, hb⟩ := hshort
        rw [beq_iff_eq, eq_comm, eq_take_of_last hshort.symm ha]
        refine ⟨fun h => Or.inr (Or.inr ⟨h, hb⟩), fun h => ?_⟩
        rcases h with h | ⟨h, -⟩ | ⟨h, -⟩
        · exact absurd h hab
        · simp [h] at hshort
          omega
        · exact h
      next hshort =>
        refine ⟨fun h => absurd h Bool.false_ne_true, fun h => ?_⟩
        rcases h with h | ⟨h, ha⟩ | ⟨h, hb⟩
        · exact absurd h hab
        · exact absurd ⟨by simp [h], ha, by simp [h]⟩ hlong
        · exact absurd ⟨by simp [h], by simp [h], hb⟩ hshort

theorem dirsEqual_refl (a : Text) : dirsEqual a a = true := (dirsEqual_iff a a).mpr (Or.inl rfl)

theorem dirsEqual_symm {a b : Text} (h : dirsEqual a b = true) : dirsEqual b a = true := by
  rw [dirsEqual_iff] at h ⊢
  rcases h with h | h | h
  · exact Or.inl h.symm
  · exact Or.inr (Or.inr h)
  · exact Or.inr (Or.inl h)

/-- The shorter of two different equal names is fixed by the longer, and the longer by the
shorter. -/
theorem dirsEqual_trans {a b c : Text} (hab : dirsEqual a b = true)
    (hbc : dirsEqual b c = true) : dirsEqual a c = true := by
  rw [dirsEqual_iff] at hab
  rcases hab with rfl | ⟨rfl, ha⟩ | ⟨rfl, hb⟩
  · exact hbc
  · rw [dirsEqual_iff] at hbc ⊢
    rcases hbc with rfl | ⟨-, hslash⟩ | ⟨heq, -⟩
    · exact Or.inr (Or.inl ⟨rfl, ha⟩)
    · exact absurd List.getLast?_concat hslash
    · exact Or.inl (List.append_cancel_right heq)
  · rw [dirsEqual_iff] at hbc ⊢
    rcases hbc with rfl | ⟨rfl, -⟩ | ⟨rfl, -⟩
    · exact Or.inr (Or.inr ⟨rfl, hb⟩)
    · exact Or.inl rfl
    · exact absurd List.getLast?_concat hb

theorem jailSep_prefix_drop (s : Text) (i : Nat) :
    jailSep <+: s.drop i ↔
      s[i]? = some '/' ∧ s[i + 1]? = some '.' ∧ s[i + 2]? = some '/' := by
  rw [List.prefix_iff_getElem?]
  simp only [List.getElem?_drop]
  constructor
  · intro h
    exact ⟨h 0 (by decide), h 1 (by decide), h 2 (by decide)⟩
  · intro ⟨h₀, h₁, h₂⟩ i hi
    match i, hi with
    | 0, _ => exact h₀
    | 1, _ => exact h₁
    | 2, _ => exact h₂

/-- The loop stops at the last separator that starts at 3 or later. -/
theorem getjaildirLoop_eq_some_iff (s d n : Text) (k : Nat) :
    getjaildirLoop s k = some (d, n) ↔
      ∃ i, 3 ≤ i ∧ i + 2 ≤ k ∧ jailSep <+: s.drop i ∧
        (∀ i', i < i' → i' + 2 ≤ k → ¬ jailSep <+: s.drop i') ∧
        d = s.take i ∧ n = s.drop (i + 2) := by
  induction k with
  | zero => simp [getjaildirLoop]
  | succ k ih =>
      by_cases hk : k + 1 > 4
      · obtain ⟨m, rfl⟩ : ∃ m, k = m + 1 := ⟨k - 1, by omega⟩
        rw [getjaildirLoop, if_pos hk]
        by_cases hsep : jailSep <+: s.drop m
        · obtain ⟨h₀, h₁, h₂⟩ := (jailSep_prefix_drop s m).mp hsep
          rw [if_pos ⟨h₂, h₁, h₀⟩]
          constructor
          · intro h
            cases h
            exact ⟨m, by omega, by omega, hsep, fun i' h₁ h₂ => by omega, rfl, rfl⟩
          · intro ⟨i, _, hle, _, hlast, hd, hn⟩
            have him : i = m := by
              by_contra hne
              exact hlast m (by omega) (by omega) hsep
            subst him
            rw [hd, hn]
            rfl
        · rw [if_neg, ih]
          · constructor
            · intro ⟨i, h3, hle, hi, hlast, hd, hn⟩
              refine ⟨i, h3, by omega, hi, fun i' h₁ h₂ hi' => ?_, hd, hn⟩
              by_cases hm : i' = m
              · exact hsep (hm ▸ hi')
              · exact hlast i' h₁ (by omega) hi'
            · intro ⟨i, h3, hle, hi, hlast, hd, hn⟩
              have him : i ≠ m := fun h => hsep (h ▸ hi)
              exact ⟨i, h3, by omega, hi, fun i' h₁ h₂ => hlast i' h₁ (by omega), hd, hn⟩
          · intro ⟨h₂, h₁, h₀⟩
            exact hsep ((jailSep_prefix_drop s m).mpr ⟨h₀, h₁, h₂⟩)
      · rw [getjaildirLoop, if_neg hk]
        constructor
        · intro h
          cases h
        · intro ⟨i, h3, hle, _⟩
          omega

theorem infix_iff_prefix_drop (p s : Text) : p <:+: s ↔ ∃ i, p <+: s.drop i := by
  rw [List.infix_iff_prefix_suffix]
  constructor
  · intro ⟨t, hp, hs⟩
    rw [List.suffix_iff_eq_drop.mp hs] at hp
    exact ⟨_, hp⟩
  · intro ⟨i, hp⟩
    exact ⟨s.drop i, hp, List.drop_suffix i s⟩

/-- `getjaildir` splits at the last separator that starts at 3 or later. -/
theorem getjaildir_eq_some_iff (s d n : Text) :
    getjaildir s = some (d, n) ↔
      s = d ++ '/' :: '.' :: n ∧ n.head? = some '/' ∧ 3 ≤ d.length ∧ ¬ jailSep <:+: n := by
  rw [getjaildir, getjaildirLoop_eq_some_iff]
  constructor
  · intro h
    obtain ⟨i, h3, hle, ⟨n', hn'⟩, hlast, hd, hn⟩ := h
    have hs : s = d ++ '/' :: '.' :: '/' :: n' := by
      rw [hd, ← List.take_append_drop i s, ← hn', List.take_left']
      · rfl
      · simp; omega
    have hlen : d.length = i := by rw [hd, List.length_take]; omega
    have hnn : n = '/' :: n' := by
      rw [hn, ← List.drop_drop, ← hn']
      rfl
    refine ⟨by rw [hs, hnn], by rw [hnn]; rfl, by omega, ?_⟩
    intro hinfix
    obtain ⟨k, hk⟩ := (infix_iff_prefix_drop jailSep n).mp hinfix
    rw [hn, List.drop_drop] at hk
    have hbound := hk.length_le
    simp only [jailSep, List.length_cons, List.length_nil, List.length_drop] at hbound
    exact hlast (i + 2 + k) (by omega) (by omega) hk
  · intro h
    obtain ⟨hs, hhead, h3, hnot⟩ := h
    obtain ⟨n', rfl⟩ := List.head?_eq_some_iff.mp hhead
    have hdrop : ∀ m, s.drop (d.length + m) = ('/' :: '.' :: '/' :: n').drop m := by
      intro m
      rw [hs, ← List.drop_drop, List.drop_left]
    refine ⟨d.length, h3, by simp [hs], ?_, ?_, ?_, ?_⟩
    · have h := hdrop 0
      rw [Nat.add_zero] at h
      rw [h]
      exact ⟨n', rfl⟩
    · intro i' hlt _ hsep
      obtain ⟨m, rfl⟩ : ∃ m, i' = d.length + (m + 1) := ⟨i' - d.length - 1, by omega⟩
      rw [hdrop] at hsep
      cases m with
      | zero =>
          obtain ⟨u, hu⟩ := hsep
          cases hu
      | succ m => exact hnot ((infix_iff_prefix_drop _ _).mpr ⟨m, hsep⟩)
    · rw [hs, List.take_left]
    · exact (hdrop 2).symm

/-- `s` has a separator behind `d`, with `t` behind that. -/
def Separated (s d t : Text) : Prop := s = d ++ (jailSep ++ t)

/-- A separator behind at least two bytes is what is sought, and the last one is taken. -/
def SplitsAtLast (s : Text) : Prop :=
  ((getjaildir s).isSome ↔ ∃ d t, 2 ≤ d.length ∧ Separated s d t) ∧
    ∀ d n, getjaildir s = some (d, n) →
      (∃ t, n = '/' :: t ∧ 2 ≤ d.length ∧ Separated s d t ∧
        ∀ d' t', Separated s d' t' → d'.length ≤ d.length) ∧
      s = d ++ '/' :: '.' :: n ∧ ¬ jailSep <:+: n

theorem separated_drop {s d t : Text} (h : Separated s d t) : jailSep <+: s.drop d.length := by
  rw [h, List.drop_left]
  exact List.prefix_append _ _

/-- Behind a separator that is not the last there is one with less behind it. -/
theorem separated_later {s d t : Text} (h : Separated s d t) (hlater : jailSep <:+: '/' :: t) :
    ∃ d' t', Separated s d' t' ∧ d.length < d'.length ∧ t'.length < t.length := by
  obtain ⟨a, b, hab⟩ := hlater
  refine ⟨d ++ '/' :: '.' :: a, b, ?_, by simp, ?_⟩
  · have hsep : jailSep ++ t = '/' :: '.' :: (a ++ (jailSep ++ b)) := by
      rw [← List.append_assoc, hab]
      rfl
    rw [Separated, h, hsep]
    simp
  · have hlen := congrArg List.length hab
    simp only [jailSep, List.length_append, List.length_cons, List.length_nil] at hlen
    omega

theorem getjaildir_of_separated {s d t : Text} (h : Separated s d t) (hlong : 3 ≤ d.length) :
    (getjaildir s).isSome := by
  induction hlen : t.length using Nat.strong_induction_on generalizing d t with
  | _ k ih =>
      by_cases hlater : jailSep <:+: '/' :: t
      · obtain ⟨d', t', h', hd, ht⟩ := separated_later h hlater
        exact ih t'.length (hlen ▸ ht) h' (by omega) rfl
      · rw [(getjaildir_eq_some_iff s d ('/' :: t)).mpr ⟨h, rfl, hlong, hlater⟩]
        rfl

theorem separated_of_getjaildir {s d n : Text} (h : getjaildir s = some (d, n)) :
    ∃ t, n = '/' :: t ∧ 3 ≤ d.length ∧ Separated s d t := by
  obtain ⟨hs, hhead, hlong, -⟩ := (getjaildir_eq_some_iff s d n).mp h
  obtain ⟨t, rfl⟩ := List.head?_eq_some_iff.mp hhead
  exact ⟨t, rfl, hlong, hs⟩

theorem getjaildir_last {s d n d' t' : Text} (h : getjaildir s = some (d, n))
    (h' : Separated s d' t') : d'.length ≤ d.length := by
  obtain ⟨i, -, hle, -, hlast, hd, -⟩ := (getjaildirLoop_eq_some_iff s d n s.length).mp h
  have hlen : d.length = i := by
    rw [hd, List.length_take]
    omega
  by_contra hlt
  have hbound : d'.length + 2 ≤ s.length := by
    rw [h']
    simp [jailSep]
  exact hlast d'.length (by omega) hbound (separated_drop h')

/-- A separator behind two bytes is found only if it is not the last. -/
theorem getjaildir_splits_iff (s : Text) :
    SplitsAtLast s ↔
      ∀ d t, d.length = 2 → Separated s d t → ∃ d' t', 3 ≤ d'.length ∧ Separated s d' t' := by
  constructor
  · intro h d t hd hsep
    have hsome := h.1.mpr ⟨d, t, by omega, hsep⟩
    obtain ⟨split, hsplit⟩ := Option.isSome_iff_exists.mp hsome
    obtain ⟨t', -, hlong, hsep'⟩ := separated_of_getjaildir hsplit
    exact ⟨split.1, t', hlong, hsep'⟩
  · intro h
    refine ⟨⟨fun hsome => ?_, fun hsep => ?_⟩, fun d n hsplit => ?_⟩
    · obtain ⟨split, hsplit⟩ := Option.isSome_iff_exists.mp hsome
      obtain ⟨t, -, hlong, hsep⟩ := separated_of_getjaildir hsplit
      exact ⟨split.1, t, by omega, hsep⟩
    · obtain ⟨d, t, hlong, hsep⟩ := hsep
      by_cases hd : d.length = 2
      · obtain ⟨d', t', hlong', hsep'⟩ := h d t hd hsep
        exact getjaildir_of_separated hsep' hlong'
      · exact getjaildir_of_separated hsep (by omega)
    · obtain ⟨t, hn, hlong, hsep⟩ := separated_of_getjaildir hsplit
      have hparts := (getjaildir_eq_some_iff s d n).mp hsplit
      exact ⟨⟨t, hn, by omega, hsep, fun d' t' => getjaildir_last hsplit⟩, hparts.1, hparts.2.2.2⟩

/-- The shortest home that the comment of the function allows. -/
theorem getjaildir_misses_shortest :
    getjaildir "/a/./".toList = none ∧ ¬ SplitsAtLast "/a/./".toList := by
  have hnone : getjaildir "/a/./".toList = none := by decide
  refine ⟨hnone, fun h => ?_⟩
  have hsome := h.1.mpr ⟨"/a".toList, [], by decide, rfl⟩
  rw [hnone] at hsome
  cases hsome

end Jailkit
