import Jailkit.JkLib.JailDir

/-!
The two homes that jk_jailuser writes down for a user: the one for the jail's passwd
file and the one for `usermod`. jk_chrootsh splits the second and compares it with the
first.
-/
namespace Jailkit.Tools

inductive AccountExn where
  | keyError
  | valueError
  | indexError
  deriving DecidableEq, Repr

def striptrailingslash (dir : Text) : Text :=
  if dir.getLast? = some '/' then dir.dropLast else dir

/-- The answer of `dirinjail` where it does not raise. -/
def inJail (testdir jail : Text) : Bool :=
  let testdir := if testdir.getLast? ≠ some '/' then testdir ++ ['/'] else testdir
  jail == testdir.take jail.length

/-- `testdir[-1]` raises for an empty path. -/
def dirinjail (testdir jail : Text) : Except AccountExn Bool :=
  if testdir = [] then .error .indexError else .ok (inJail testdir jail)

/-- `jailhome` of `addusertojail`, for a home that is not empty. -/
def addusertojailHome (jail pw_dir : Text) : Text :=
  let jail := striptrailingslash jail
  if inJail pw_dir jail then
    if pw_dir.take (jail.length + 3) = jail ++ "/./".toList then pw_dir.drop (jail.length + 2)
    else pw_dir.drop jail.length
  else
    pw_dir

/-- `newhome` of `jailuser`, for such a home. -/
def jailuserHome (jail pw_dir : Text) : Text :=
  let jail := if jail.getLast? ≠ some '/' then jail ++ ['/'] else jail
  let newhome :=
    if inJail pw_dir jail then
      if pw_dir.take (jail.length + 2) = jail ++ "./".toList then pw_dir
      else jail ++ ['.'] ++ pw_dir.drop (jail.length - 1)
    else
      jail ++ ['.'] ++ pw_dir
  striptrailingslash newhome

/-- A jail as `getjail` returns it. -/
structure JailPath where
  text : Text
  absolute : text.head? = some '/'
  slash : text.getLast? = some '/'

def JailPath.dir (jail : JailPath) : Text := jail.text.dropLast

structure HomePath where
  text : Text
  absolute : text.head? = some '/'

/-- jk_chrootsh finds the jail and the home that the user has in it. -/
def Agrees (jail : JailPath) (home : HomePath) : Prop :=
  ∃ jaildir newhomedir,
    getjaildir (jailuserHome jail.text home.text) = some (jaildir, newhomedir) ∧
      dirsEqual jaildir jail.text = true ∧
      dirsEqual (addusertojailHome jail.text home.text) newhomedir = true

/-- `HomeInJail dir home h`: seen from the jail at `dir`, the home is at `h`. A home
whose name merely begins like that of the jail is not in this relation. -/
inductive HomeInJail (dir home : Text) : Text → Prop where
  | marked {h} : home = dir ++ '/' :: '.' :: h → h.head? = some '/' → HomeInJail dir home h
  | inside {h} : home = dir ++ h → (h = [] ∨ h.head? = some '/') → ¬ jailSep <+: h →
      HomeInJail dir home h
  | outside : ¬ dir <+: home → HomeInJail dir home home

def slashed (t : Text) : Text := if t.getLast? ≠ some '/' then t ++ ['/'] else t

theorem inJail_iff (testdir jail : Text) :
    inJail testdir jail = true ↔ jail <+: slashed testdir := by
  rw [inJail, slashed, beq_iff_eq, List.prefix_iff_eq_take]

theorem JailPath.text_eq (jail : JailPath) : jail.text = jail.dir ++ ['/'] :=
  (List.dropLast_append_getLast? '/' jail.slash).symm

theorem striptrailingslash_snoc (t : Text) : striptrailingslash (t ++ ['/']) = t := by
  simp [striptrailingslash]

theorem striptrailingslash_of_ne {t : Text} (h : t.getLast? ≠ some '/') :
    striptrailingslash t = t := if_neg h

/-- Taking off a slash leaves what stands before it. -/
theorem striptrailingslash_cases (t : Text) :
    striptrailingslash t = t ∧ t.getLast? ≠ some '/' ∨ t = striptrailingslash t ++ ['/'] := by
  by_cases h : t.getLast? = some '/'
  · refine Or.inr ?_
    rw [striptrailingslash, if_pos h]
    exact (List.dropLast_append_getLast? '/' h).symm
  · exact Or.inl ⟨striptrailingslash_of_ne h, h⟩

theorem striptrailingslash_append (s t : Text) {c : Char} (hc : c ≠ '/') :
    striptrailingslash (s ++ c :: t) = s ++ c :: striptrailingslash t := by
  rcases striptrailingslash_cases t with ⟨ht, hlast⟩ | ht
  · rw [ht]
    apply striptrailingslash_of_ne
    rw [List.getLast?_append, List.getLast?_cons]
    cases hl : t.getLast? with
    | none => simpa using hc
    | some d => simpa [hl] using hlast
  · have h := striptrailingslash_snoc (s ++ c :: striptrailingslash t)
    rwa [List.append_assoc, List.cons_append, ← ht] at h

/-- The part of the home that `jailuser` puts behind the separator. -/
def restOf (jail : JailPath) (home : Text) : Text :=
  if inJail home jail.text then
    if home.take (jail.dir.length + 3) = jail.dir ++ "/./".toList then
      home.drop (jail.dir.length + 2)
    else home.drop jail.dir.length
  else
    home

theorem jailuserHome_eq (jail : JailPath) (home : Text) :
    jailuserHome jail.text home =
      jail.dir ++ '/' :: '.' :: striptrailingslash (restOf jail home) := by
  have hlen : jail.text.length = jail.dir.length + 1 := by
    rw [jail.text_eq, List.length_append, List.length_singleton]
  have hdot : ∀ t, striptrailingslash (jail.text ++ ['.'] ++ t) =
      jail.dir ++ '/' :: '.' :: striptrailingslash t := by
    intro t
    rw [jail.text_eq, List.append_assoc, List.append_assoc, List.singleton_append,
      List.singleton_append, List.append_cons, striptrailingslash_append _ _ (by decide)]
    simp
  have hslash : ¬ jail.text.getLast? ≠ some '/' := fun h => h jail.slash
  have hsep : jail.text ++ "./".toList = jail.dir ++ "/./".toList := by
    rw [jail.text_eq]
    simp
  simp only [jailuserHome, restOf, if_neg hslash, hlen, Nat.add_sub_cancel, hsep]
  split
  · split
    next hmarked =>
      rw [← hdot]
      congr 1
      rw [jail.text_eq]
      have hhome := (List.take_append_drop (jail.dir.length + 3) home).symm
      rw [hmarked] at hhome
      generalize home.drop (jail.dir.length + 3) = y at hhome
      subst hhome
      simp [List.drop_append]
    · exact hdot _
  · exact hdot _

theorem JailPath.striptrailingslash_text (jail : JailPath) :
    striptrailingslash jail.text = jail.dir := by
  rw [jail.text_eq, striptrailingslash_snoc]

theorem addusertojailHome_eq (jail : JailPath) (home : Text)
    (h : inJail home jail.dir = inJail home jail.text) :
    addusertojailHome jail.text home = restOf jail home := by
  simp only [addusertojailHome, restOf, jail.striptrailingslash_text, h]

/-- Where jk_chrootsh splits such a home, and when it finds the jail there. -/
theorem finds_jail_iff (jail : JailPath) (r jaildir newhomedir : Text) :
    (getjaildir (jail.dir ++ '/' :: '.' :: r) = some (jaildir, newhomedir) ∧
        dirsEqual jaildir jail.text = true) ↔
      jaildir = jail.dir ∧ newhomedir = r ∧ r.head? = some '/' ∧ 3 ≤ jail.dir.length ∧
        jail.dir.getLast? ≠ some '/' ∧ ¬ jailSep <:+: r := by
  rw [getjaildir_eq_some_iff, dirsEqual_iff, jail.text_eq]
  constructor
  · intro ⟨⟨hsplit, hhead, h3, hsep⟩, hequal⟩
    rcases hequal with h | ⟨h, hlast⟩ | ⟨h, hlast⟩
    · -- the byte behind the jail's slash is the dot
      rw [h, List.append_assoc] at hsplit
      have hcons := List.append_cancel_left hsplit
      simp at hcons
    · have hdir : jail.dir = jaildir := List.append_cancel_right h
      subst hdir
      have hcons := List.append_cancel_left hsplit
      simp only [List.cons.injEq, true_and] at hcons
      subst hcons
      exact ⟨rfl, rfl, hhead, h3, hlast, hsep⟩
    · simp at hlast
  · intro ⟨hdir, hhome, hhead, h3, hlast, hsep⟩
    subst hdir hhome
    exact ⟨⟨rfl, hhead, h3, hsep⟩, Or.inr (Or.inl ⟨rfl, hlast⟩)⟩

theorem prefix_slashed_iff {dir t : Text} (hdir : dir.getLast? ≠ some '/') :
    dir <+: slashed t ↔ dir <+: t := by
  rw [slashed]
  split
  · constructor
    · intro h
      rcases List.prefix_concat_iff.mp h with h | h
      · exact absurd (by rw [h]; simp) hdir
      · exact h
    · intro h
      exact h.trans (List.prefix_append t ['/'])
  · exact Iff.rfl

theorem inJail_dir_iff (jail : JailPath) (home : Text)
    (hdir : jail.dir.getLast? ≠ some '/') :
    inJail home jail.dir = true ↔ jail.dir <+: home := by
  rw [inJail_iff, prefix_slashed_iff hdir]

theorem inJail_text_iff (jail : JailPath) (home : Text)
    (hdir : jail.dir.getLast? ≠ some '/') :
    inJail home jail.text = true ↔
      ∃ h, home = jail.dir ++ h ∧ (h = [] ∨ h.head? = some '/') := by
  rw [inJail_iff, jail.text_eq, slashed]
  constructor
  · intro h
    have hpre : jail.dir ++ ['/'] <+: home ∨ jail.dir ++ ['/'] = home ++ ['/'] := by
      split at h
      · exact (List.prefix_concat_iff.mp h).symm
      · exact Or.inl h
    cases hpre with
    | inl hpre =>
        obtain ⟨y, hy⟩ := hpre
        exact ⟨'/' :: y, by rw [← hy]; simp, Or.inr rfl⟩
    | inr heq => exact ⟨[], by rw [List.append_cancel_right heq, List.append_nil], Or.inl rfl⟩
  · intro ⟨h, hhome, hh⟩
    cases hh with
    | inl hnil =>
        rw [hnil, List.append_nil] at hhome
        simp only [hhome, if_pos hdir, List.prefix_refl]
    | inr hhead =>
        obtain ⟨y, hy⟩ := List.head?_eq_some_iff.mp hhead
        have hpre : jail.dir ++ ['/'] <+: home := ⟨y, by rw [hhome, hy]; simp⟩
        split
        · exact hpre.trans (List.prefix_append home ['/'])
        · exact hpre

/-- The two tests of jk_jailuser differ for a home that merely begins like the jail. -/
theorem inJail_eq_iff (jail : JailPath) (home : Text)
    (hdir : jail.dir.getLast? ≠ some '/') :
    inJail home jail.dir = inJail home jail.text ↔ ∃ h, HomeInJail jail.dir home h := by
  rw [Bool.eq_iff_iff, inJail_dir_iff jail home hdir, inJail_text_iff jail home hdir]
  constructor
  · intro heq
    by_cases hpre : jail.dir <+: home
    · obtain ⟨h, hhome, hh⟩ := heq.mp hpre
      by_cases hsep : jailSep <+: h
      · obtain ⟨y, hy⟩ := hsep
        exact ⟨'/' :: y, .marked (by rw [hhome, ← hy]; rfl) rfl⟩
      · exact ⟨h, .inside hhome hh hsep⟩
    · exact ⟨home, .outside hpre⟩
  · intro ⟨h, hin⟩
    cases hin with
    | marked hhome hhead =>
        exact iff_of_true ⟨_, hhome.symm⟩ ⟨_, hhome, Or.inr rfl⟩
    | inside hhome hh hsep => exact iff_of_true ⟨_, hhome.symm⟩ ⟨h, hhome, hh⟩
    | outside hpre => exact iff_of_false hpre fun ⟨h, hhome, _⟩ => hpre ⟨h, hhome.symm⟩

theorem restOf_eq (jail : JailPath) {home h : Text} (hdir : jail.dir.getLast? ≠ some '/')
    (hin : HomeInJail jail.dir home h) : restOf jail home = h := by
  have htext := inJail_text_iff jail home hdir
  rw [restOf]
  cases hin with
  | marked hhome hhead =>
      obtain ⟨y, rfl⟩ := List.head?_eq_some_iff.mp hhead
      rw [if_pos (htext.mpr ⟨_, hhome, Or.inr rfl⟩), hhome, if_pos]
      · simp [List.drop_append]
      · simp [List.take_append, List.take_of_length_le]
  | inside hhome hh hsep =>
      rw [if_pos (htext.mpr ⟨h, hhome, hh⟩), hhome, if_neg]
      · simp
      · intro htake
        rw [List.take_append, List.take_of_length_le (by omega),
          show jail.dir.length + 3 - jail.dir.length = 3 by omega] at htake
        apply hsep
        rw [List.prefix_iff_eq_take]
        exact (List.append_cancel_left htake).symm
  | outside hpre =>
      rw [if_neg]
      intro hin
      obtain ⟨h, hhome, -⟩ := htext.mp hin
      exact hpre ⟨h, hhome.symm⟩

theorem agrees_iff_equal (jail : JailPath) (home : HomePath) :
    Agrees jail home ↔
      let r := striptrailingslash (restOf jail home.text)
      r.head? = some '/' ∧ 3 ≤ jail.dir.length ∧ jail.dir.getLast? ≠ some '/' ∧
        ¬ jailSep <:+: r ∧ dirsEqual (addusertojailHome jail.text home.text) r = true := by
  rw [Agrees, jailuserHome_eq]
  constructor
  · intro ⟨jaildir, newhomedir, hsplit, hequal, hhome⟩
    obtain ⟨-, hr, hrest⟩ := (finds_jail_iff _ _ _ _).mp ⟨hsplit, hequal⟩
    rw [hr] at hhome
    exact ⟨hrest.1, hrest.2.1, hrest.2.2.1, hrest.2.2.2, hhome⟩
  · intro ⟨hhead, h3, hlast, hsep, hhome⟩
    have hfinds := (finds_jail_iff jail _ _ _).mpr ⟨rfl, rfl, hhead, h3, hlast, hsep⟩
    exact ⟨_, _, hfinds.1, hfinds.2, hhome⟩

/-- One slash too many is forgiven, two are not. -/
theorem dirsEqual_striptrailingslash (t : Text) :
    dirsEqual t (striptrailingslash t) = true ↔ (striptrailingslash t).getLast? ≠ some '/' := by
  rcases striptrailingslash_cases t with ⟨ht, hlast⟩ | ht
  · rw [ht, dirsEqual_iff]
    exact iff_of_true (Or.inl rfl) hlast
  · rw [dirsEqual_iff]
    constructor
    · intro h
      rcases h with h | ⟨h, -⟩ | ⟨-, h⟩
      · rw [← h] at ht
        simp at ht
      · rw [h] at ht
        simp at ht
      · exact h
    · intro h
      exact Or.inr (Or.inr ⟨ht, h⟩)

/-- A home that merely begins like the jail loses the jail's name in one of the files. -/
theorem not_dirsEqual_beginning (jail : JailPath) (home : Text) (h3 : 3 ≤ jail.dir.length)
    (hdir : jail.dir.getLast? ≠ some '/') (hnot : ¬ ∃ h, HomeInJail jail.dir home h) :
    dirsEqual (addusertojailHome jail.text home) (striptrailingslash (restOf jail home)) =
      false := by
  rw [← Bool.not_eq_true]
  intro hequal
  rw [← inJail_eq_iff jail home hdir] at hnot
  have htext : ¬ inJail home jail.text = true := by
    intro htext
    obtain ⟨h, hhome, -⟩ := (inJail_text_iff jail home hdir).mp htext
    refine hnot (((inJail_dir_iff jail home hdir).mpr ⟨h, hhome.symm⟩).trans htext.symm)
  have hpre : jail.dir <+: home := by
    rw [← inJail_dir_iff jail home hdir]
    by_contra hpre
    exact hnot (by rw [Bool.eq_false_iff.mpr hpre, Bool.eq_false_iff.mpr htext])
  have hshort : (addusertojailHome jail.text home).length + jail.dir.length ≤ home.length := by
    have hle := hpre.length_le
    have hin := (inJail_dir_iff jail home hdir).mpr hpre
    simp only [addusertojailHome, jail.striptrailingslash_text, hin, ite_true]
    split <;> (rw [List.length_drop]; omega)
  have hlong : home.length ≤ (striptrailingslash home).length + 1 := by
    rcases striptrailingslash_cases home with ⟨h, -⟩ | h
    · rw [h]
      omega
    · have hlen := congrArg List.length h
      simp at hlen
      omega
  rw [restOf, if_neg htext, dirsEqual_iff] at hequal
  rcases hequal with h | ⟨h, -⟩ | ⟨h, -⟩
  · have hlen := congrArg List.length h
    omega
  · have hlen := congrArg List.length h
    rw [List.length_append, List.length_singleton] at hlen
    omega
  · have hlen := congrArg List.length h
    rw [List.length_append, List.length_singleton] at hlen
    omega

/-- The two records agree exactly if the jail has a name of three bytes without a slash
at its end, the home does not merely begin like it, and, seen from the jail, the home is
not the root, has one slash at its end at most and holds no separator. -/
theorem agrees_iff (jail : JailPath) (home : HomePath) :
    Agrees jail home ↔
      3 ≤ jail.dir.length ∧ jail.dir.getLast? ≠ some '/' ∧
        ∃ h, HomeInJail jail.dir home.text h ∧ (striptrailingslash h).head? = some '/' ∧
          (striptrailingslash h).getLast? ≠ some '/' ∧
          ¬ jailSep <:+: striptrailingslash h := by
  rw [agrees_iff_equal]
  constructor
  · intro ⟨hhead, h3, hdir, hsep, hequal⟩
    by_cases hin : ∃ h, HomeInJail jail.dir home.text h
    · have hsame := (inJail_eq_iff jail home.text hdir).mpr hin
      obtain ⟨h, hin⟩ := hin
      rw [addusertojailHome_eq jail home.text hsame, dirsEqual_striptrailingslash] at hequal
      rw [restOf_eq jail hdir hin] at hhead hsep hequal
      exact ⟨h3, hdir, h, hin, hhead, hequal, hsep⟩
    · rw [not_dirsEqual_beginning jail home.text h3 hdir hin] at hequal
      exact absurd hequal Bool.false_ne_true
  · intro ⟨h3, hdir, h, hin, hhead, hlast, hsep⟩
    have hsame := (inJail_eq_iff jail home.text hdir).mpr ⟨h, hin⟩
    rw [addusertojailHome_eq jail home.text hsame, restOf_eq jail hdir hin]
    exact ⟨hhead, h3, hdir, hsep, (dirsEqual_striptrailingslash h).mpr hlast⟩

/-- The user jailbob keeps a home beside the jail, and `bob` is written for it. -/
theorem agrees_beside_jail :
    ¬ Agrees ⟨"/home/jail/".toList, by decide, by decide⟩
      ⟨"/home/jailbob".toList, by decide⟩ := by
  intro ⟨jaildir, newhomedir, hsplit, _, hequal⟩
  have hnew : getjaildir (jailuserHome "/home/jail/".toList "/home/jailbob".toList) =
      some ("/home/jail".toList, "/home/jailbob".toList) := by decide
  have hold : addusertojailHome "/home/jail/".toList "/home/jailbob".toList = "bob".toList := by
    decide
  cases hnew.symm.trans hsplit
  rw [hold] at hequal
  exact absurd hequal (by decide)

end Jailkit.Tools
