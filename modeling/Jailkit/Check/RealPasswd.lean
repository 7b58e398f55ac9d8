import Jailkit.JkLib.JailDir
import Jailkit.JkLib.Paths
import Jailkit.JkLib.PyString

/-!
The jails that jk_check finds in the real passwd file, beside those that jk_chrootsh
takes its users to.
-/
namespace Jailkit.Check

open JkLib (find readlines testUserExist osPathJoin)

abbrev Contents := Text → Option Text

def exeprefix : Text := "/usr".toList

def etcPasswd : Text := "/etc/passwd".toList

/-- `chrootsh` of `testrealpasswd`. -/
def chrootshPath : Text := osPathJoin exeprefix "sbin/jk_chrootsh".toList

def missingUser (user chroot : Text) : Text :=
  "ERROR: user ".toList ++ user ++ " does not exist in ".toList ++ chroot ++ etcPasswd

def otherShell (user : Text) : Text :=
  "ERROR: user ".toList ++ user ++ " has a /./ but does not have the ".toList ++ chrootshPath ++
    " shell".toList

/-- One round of `testrealpasswd`: what it prints and the jails it adds. Of a line without
a shell field `rpw[6]` raises an `IndexError` that nothing catches. -/
def testrealpasswdLine (files : Contents) (rline : Text) : List Text × Option (List Text) :=
  let rpw := rline.splitOn ':'
  match rpw[0]?, rpw[5]? with
  | some user, some home =>
      match find jailSep home with
      | none => ([], some [])
      | some jaildot =>
          let chroot := home.take (jaildot + 1)
          let missing :=
            if testUserExist user (files (chroot ++ etcPasswd)) then []
            else [missingUser user chroot]
          match rpw[6]? with
          | none => (missing, none)
          | some shell =>
              (missing ++ if trim shell = chrootshPath then [] else [otherShell user],
                some [chroot])
  | _, _ => ([], some [])

def testrealpasswdLoop (files : Contents) : List Text → List Text × Option (List Text)
  | [] => ([], some [])
  | rline :: rlines =>
      let (printed, jails) := testrealpasswdLine files rline
      match jails with
      | none => (printed, none)
      | some jails =>
          let (printed', jails') := testrealpasswdLoop files rlines
          (printed ++ printed', jails'.map fun js => jails ++ js)

/-- The jails that the lines of `passwd` give, `none` after an exception. -/
def jailsOf (files : Contents) (passwd : Text) : Option (List Text) :=
  (testrealpasswdLoop files (readlines passwd)).2

/-- `testrealpasswd`: it returns when the file is there and no line raises. -/
def testrealpasswd (files : Contents) : Option (List Text) :=
  (files etcPasswd).bind (jailsOf files)

/-- A line of the passwd file down to the home. Behind the home the line ends, or a colon
and further fields follow. -/
structure PasswdLine where
  before : List Text
  home : Text
  shell : Option Text
  five : before.length = 5
  fields : ∀ f ∈ home :: before, ':' ∉ f ∧ '\n' ∉ f
  oneLine : ∀ s ∈ shell, '\n' ∉ s

def PasswdLine.text (e : PasswdLine) : Text :=
  (e.before.flatMap fun f => f ++ [':']) ++ e.home ++ (e.shell.elim [] fun s => ':' :: s)

def FollowsLine (t : Text) : Prop := t = [] ∨ ∃ t', t = '\n' :: t'

/-- The jails that jk_chrootsh takes the user with that home to, as `testrealpasswd`
writes them. -/
def chrootshJails (home : Text) : List Text :=
  (getjaildir home).toList.map fun j => j.1 ++ ['/']

/-- A home is split in one place only, and the jail before it is not the root. -/
def OneSeparator (home : Text) : Prop :=
  (∀ i, jailSep <+: home.drop i → 3 ≤ i) ∧
    ∀ i j, jailSep <+: home.drop i → jailSep <+: home.drop j → i = j

theorem jailSep_prefix_drop_bound {s : Text} {i : Nat} (h : jailSep <+: s.drop i) :
    i + 3 ≤ s.length := by
  have hle := h.length_le
  simp only [jailSep, List.length_cons, List.length_nil, List.length_drop] at hle
  omega

/-- The two searches meet when there is one separator to find. -/
theorem find_eq_getjaildir_iff (home : Text) :
    ((find jailSep home).map fun i => home.take (i + 1)) =
        (getjaildir home).map (fun j => j.1 ++ ['/']) ↔ OneSeparator home := by
  have hslash : ∀ i, jailSep <+: home.drop i → home.take (i + 1) = home.take i ++ ['/'] := by
    intro i hi
    rw [List.take_add_one, ((jailSep_prefix_drop home i).mp hi).1]
    rfl
  cases hfind : find jailSep home with
  | none =>
      have hno := (JkLib.find_eq_none_iff jailSep home).mp hfind
      have hjail : getjaildir home = none := by
        cases hj : getjaildir home with
        | none => rfl
        | some j =>
            obtain ⟨i, _, _, hi, _⟩ := (getjaildirLoop_eq_some_iff home j.1 j.2 _).mp hj
            exact absurd hi (hno i)
      rw [hjail]
      exact ⟨fun _ => ⟨fun i hi => absurd hi (hno i), fun i _ hi => absurd hi (hno i)⟩,
        fun _ => rfl⟩
  | some i =>
      obtain ⟨_, hi, hfirst⟩ := (JkLib.find_eq_some_iff jailSep home i).mp hfind
      have hbound := jailSep_prefix_drop_bound hi
      constructor
      · intro heq
        obtain ⟨⟨d, n⟩, hj, hd⟩ := Option.map_eq_some_iff.mp heq.symm
        obtain ⟨k, h3, _, hk, hlast, hdk, _⟩ := (getjaildirLoop_eq_some_iff home d n _).mp hj
        have hik : k = i := by
          have hlen := congrArg List.length hd
          have hbound' := jailSep_prefix_drop_bound hk
          simp only [hdk, List.length_append, List.length_take, List.length_singleton] at hlen
          omega
        have hall : ∀ j, jailSep <+: home.drop j → j = i := by
          intro j hj
          have hge : ¬ j < i := fun hlt => hfirst j hlt hj
          have hle : ¬ k < j := fun hlt =>
            hlast j hlt (by have := jailSep_prefix_drop_bound hj; omega) hj
          omega
        exact ⟨fun j hj => by rw [hall j hj]; omega,
          fun j j' hj hj' => by rw [hall j hj, hall j' hj']⟩
      · intro ⟨hthree, hone⟩
        have hj : getjaildir home = some (home.take i, home.drop (i + 2)) := by
          refine (getjaildirLoop_eq_some_iff home _ _ _).mpr
            ⟨i, hthree i hi, by omega, hi, fun j hlt _ hj => ?_, rfl, rfl⟩
          exact absurd (hone i j hi hj) (Nat.ne_of_lt hlt)
        rw [hj, Option.map_some, Option.map_some, hslash i hi]

theorem splitOn_fields {fs : List Text} (h : ∀ f ∈ fs, ':' ∉ f) (rest : Text) :
    ((fs.flatMap fun f => f ++ [':']) ++ rest).splitOn ':' = fs ++ rest.splitOn ':' := by
  induction fs with
  | nil => rfl
  | cons f fs ih =>
      have hf : f.splitOn ':' = [f] := List.splitOn_eq_singleton (h f List.mem_cons_self)
      rw [List.flatMap_cons, List.append_assoc, List.append_assoc, List.singleton_append,
        List.splitOn_append_cons_self, hf, ih fun g hg => h g (List.mem_cons_of_mem f hg)]
      rfl

/-- The fields that the loop sees in a line, with the line end `nl` in the last one. -/
theorem PasswdLine.splitOn (e : PasswdLine) {nl : Text} (hnl : ':' ∉ nl) :
    (e.text ++ nl).splitOn ':' =
      e.before ++ e.shell.elim [e.home ++ nl] fun s => e.home :: (s ++ nl).splitOn ':' := by
  have hbefore : ∀ f ∈ e.before, ':' ∉ f := fun f hf =>
    (e.fields f (List.mem_cons_of_mem _ hf)).1
  have hhome : ':' ∉ e.home := (e.fields e.home List.mem_cons_self).1
  rw [PasswdLine.text, List.append_assoc, List.append_assoc, splitOn_fields hbefore]
  cases e.shell with
  | none =>
      rw [Option.elim_none, Option.elim_none, List.nil_append]
      rw [List.splitOn_eq_singleton fun h => (List.mem_append.mp h).elim hhome hnl]
  | some s =>
      rw [Option.elim_some, Option.elim_some, List.cons_append, List.splitOn_append_cons_self,
        List.splitOn_eq_singleton hhome]
      rfl

/-- A line end behind the home does not make a separator. -/
theorem find_jailSep_line (home : Text) {nl : Text} (hnl : nl = [] ∨ nl = ['\n']) :
    find jailSep (home ++ nl) = find jailSep home := by
  cases hnl with
  | inl h => rw [h, List.append_nil]
  | inr h => rw [h, JkLib.find_snoc (by decide) (by decide)]

/-- What one line adds, and when it ends the program. -/
theorem testrealpasswdLine_jails (files : Contents) (e : PasswdLine) {nl : Text}
    (hnl : nl = [] ∨ nl = ['\n']) :
    (testrealpasswdLine files (e.text ++ nl)).2 =
      if e.shell = none ∧ (find jailSep e.home).isSome then none
      else some ((find jailSep e.home).map fun i => e.home.take (i + 1)).toList := by
  have hcolon : ':' ∉ nl := by
    cases hnl with
    | inl h => simp [h]
    | inr h => simp [h]
  have hsplit := e.splitOn hcolon
  have hfive := e.five
  obtain ⟨user, huser⟩ : ∃ user, e.before[0]? = some user :=
    ⟨_, List.getElem?_eq_getElem (by omega)⟩
  have h0 : ∀ more, (e.before ++ more)[0]? = some user := by
    intro more
    rw [List.getElem?_append_left (by omega), huser]
  have hat : ∀ more i, (e.before ++ more)[5 + i]? = more[i]? := by
    intro more i
    rw [List.getElem?_append_right (by omega), hfive, Nat.add_sub_cancel_left]
  cases hshell : e.shell with
  | none =>
      rw [hshell, Option.elim_none] at hsplit
      have h5 := hat [e.home ++ nl] 0
      have h6 := hat [e.home ++ nl] 1
      simp only [testrealpasswdLine, hsplit, h0, h5, h6, List.getElem?_cons_zero,
        List.getElem?_cons_succ, List.getElem?_nil, find_jailSep_line e.home hnl]
      cases find jailSep e.home with
      | none => rfl
      | some i => rfl
  | some s =>
      rw [hshell, Option.elim_some] at hsplit
      obtain ⟨shell, more, hmore⟩ := List.exists_cons_of_ne_nil
        (List.splitOn_ne_nil ':' (s ++ nl))
      rw [hmore] at hsplit
      have h5 := hat (e.home :: shell :: more) 0
      have h6 := hat (e.home :: shell :: more) 1
      simp only [testrealpasswdLine, hsplit, h0, h5, h6, List.getElem?_cons_zero,
        List.getElem?_cons_succ]
      cases find jailSep e.home with
      | none => rfl
      | some i => rfl

theorem testrealpasswdLoop_cons (files : Contents) (rline : Text) (rlines : List Text) :
    (testrealpasswdLoop files (rline :: rlines)).2 =
      (testrealpasswdLine files rline).2.bind fun jails =>
        (testrealpasswdLoop files rlines).2.map fun js => jails ++ js := by
  rw [testrealpasswdLoop]
  cases h : testrealpasswdLine files rline with
  | mk printed jails =>
      cases jails with
      | none => rfl
      | some jails => rfl

theorem testrealpasswdLoop_append (files : Contents) (ls ls' : List Text) :
    (testrealpasswdLoop files (ls ++ ls')).2 =
      (testrealpasswdLoop files ls).2.bind fun js =>
        (testrealpasswdLoop files ls').2.map fun js' => js ++ js' := by
  induction ls with
  | nil =>
      cases h : (testrealpasswdLoop files ls').2 with
      | none => simp [testrealpasswdLoop, h]
      | some js => simp [testrealpasswdLoop, h]
  | cons l ls ih =>
      rw [List.cons_append, testrealpasswdLoop_cons, testrealpasswdLoop_cons, ih]
      cases (testrealpasswdLine files l).2 with
      | none => rfl
      | some jails =>
          cases (testrealpasswdLoop files ls).2 with
          | none => rfl
          | some js =>
              cases (testrealpasswdLoop files ls').2 with
              | none => rfl
              | some js' => simp

theorem PasswdLine.text_ne_nil (e : PasswdLine) : e.text ≠ [] := by
  obtain ⟨f, before, hbefore⟩ : ∃ f before, e.before = f :: before := by
    cases hb : e.before with
    | nil => simpa [hb] using e.five
    | cons f before => exact ⟨f, before, rfl⟩
  simp [PasswdLine.text, hbefore]

theorem PasswdLine.newline_not_mem (e : PasswdLine) : '\n' ∉ e.text := by
  have hfields : ∀ f ∈ e.home :: e.before, '\n' ∉ f := fun f hf => (e.fields f hf).2
  have hline := e.oneLine
  cases hs : e.shell with
  | none => simp_all [PasswdLine.text]
  | some s => simp_all [PasswdLine.text]

/-- A line of the file is looked at between what comes before and what comes after it. -/
theorem jailsOf_line (files : Contents) {front back : Text} (e : PasswdLine)
    (hfront : EndsLine front) (hback : FollowsLine back) :
    jailsOf files (front ++ e.text ++ back) =
      (jailsOf files front).bind fun js =>
        (if e.shell = none ∧ (find jailSep e.home).isSome then none
          else some ((find jailSep e.home).map fun i => e.home.take (i + 1)).toList).bind
        fun added => (jailsOf files back).map fun js' => js ++ (added ++ js') := by
  have hlines : ∃ nl rest, (nl = [] ∨ nl = ['\n']) ∧
      readlines (e.text ++ back) = (e.text ++ nl) :: rest ∧
      jailsOf files back = (testrealpasswdLoop files rest).2 := by
    cases hback with
    | inl h =>
        have hone := (JkLib.readlines_line e.text_ne_nil e.newline_not_mem []).1
        rw [h, List.append_nil]
        exact ⟨[], [], Or.inl rfl, by rw [hone, List.append_nil], rfl⟩
    | inr h =>
        obtain ⟨t, ht⟩ := h
        rw [ht]
        refine ⟨['\n'], readlines t, Or.inr rfl,
          (JkLib.readlines_line e.text_ne_nil e.newline_not_mem t).2, ?_⟩
        rw [jailsOf, JkLib.readlines_newline, testrealpasswdLoop_cons]
        cases (testrealpasswdLoop files (readlines t)).2 with
        | none => rfl
        | some js => rfl
  obtain ⟨nl, rest, hnl, hread, hafter⟩ := hlines
  rw [hafter, jailsOf, jailsOf, List.append_assoc, JkLib.readlines_endsLine hfront,
    testrealpasswdLoop_append, hread, testrealpasswdLoop_cons,
    testrealpasswdLine_jails files e hnl]
  cases (testrealpasswdLoop files (readlines front)).2 with
  | none => rfl
  | some js =>
      split
      · rfl
      · cases (testrealpasswdLoop files rest).2 with
        | none => rfl
        | some js' => rfl

/-- `testrealpasswd` adds the jail of a line as jk_chrootsh finds it exactly when there is
one place to split the home at, at 3 or later, and none at all when the line has no shell
field. -/
theorem testrealpasswd_adds_chrootsh_jail_iff (files : Contents) (front back : Text)
    (e : PasswdLine) (js js' : List Text)
    (hpasswd : files etcPasswd = some (front ++ e.text ++ back))
    (hfront : EndsLine front) (hback : FollowsLine back)
    (hjs : jailsOf files front = some js) (hjs' : jailsOf files back = some js') :
    testrealpasswd files = some (js ++ (chrootshJails e.home ++ js')) ↔
      OneSeparator e.home ∧ (e.shell = none → ¬ jailSep <:+: e.home) := by
  have hinfix : jailSep <:+: e.home ↔ (find jailSep e.home).isSome = true := by
    rw [infix_iff_prefix_drop, ← not_iff_not, not_exists, ← JkLib.find_eq_none_iff]
    simp
  rw [testrealpasswd, hpasswd, Option.bind_some, jailsOf_line files e hfront hback, hjs,
    Option.bind_some, hjs', ← find_eq_getjaildir_iff, hinfix]
  split
  next hraises =>
    constructor
    · intro h
      cases h
    · intro h
      exact absurd hraises.2 (h.2 hraises.1)
  next hreturns =>
    rw [not_and] at hreturns
    rw [Option.bind_some, Option.map_some, Option.some_inj, List.append_cancel_left_eq,
      List.append_cancel_right_eq, and_iff_left hreturns, chrootshJails]
    cases find jailSep e.home with
    | none =>
        cases getjaildir e.home with
        | none => simp
        | some j => simp
    | some i =>
        cases getjaildir e.home with
        | none => simp
        | some j => simp

def oneLine (line : Text) : Contents := fun path =>
  if path = etcPasswd then some line else none

def nestedJail : PasswdLine where
  before := ["u".toList, "x".toList, "1".toList, "1".toList, []]
  home := "/jail/./home/./u".toList
  shell := some "/usr/sbin/jk_chrootsh".toList
  five := rfl
  fields := by decide
  oneLine := by decide

def plainJail : PasswdLine := { nestedJail with home := "/jail/./home/u".toList, fields := by decide }

theorem plainJail_oneSeparator : OneSeparator plainJail.home := by
  have hplaces : ∀ i < 14, jailSep <+: plainJail.home.drop i → i = 5 := by decide +kernel
  have hfive : ∀ i, jailSep <+: plainJail.home.drop i → i = 5 := by
    intro i hi
    have hbound := jailSep_prefix_drop_bound hi
    have hlength : plainJail.home.length = 14 := by decide +kernel
    exact hplaces i (by omega) hi
  constructor
  · intro i hi
    rw [hfive i hi]
    decide
  · intro i j hi hj
    rw [hfive i hi, hfive j hj]

def lineBefore : Text := "a:x:2:2::/srv/a/./home/a:/usr/sbin/jk_chrootsh\n".toList

def lineAfter : Text := "\nb:x:3:3::/srv/b/./b:/bin/sh\n".toList

def betweenLines (e : PasswdLine) : Contents := oneLine (lineBefore ++ e.text ++ lineAfter)

/-- Two entries between others, of which the second one is right. -/
theorem testrealpasswd_adds_chrootsh_jail_iff_between :
    (testrealpasswd (betweenLines nestedJail) =
        some ("/srv/a/".toList :: (chrootshJails nestedJail.home ++ ["/srv/b/".toList])) ↔
      OneSeparator nestedJail.home ∧
        (nestedJail.shell = none → ¬ jailSep <:+: nestedJail.home)) ∧
    testrealpasswd (betweenLines plainJail) =
      some ["/srv/a/".toList, "/jail/".toList, "/srv/b/".toList] := by
  have hbefore : EndsLine lineBefore := Or.inr ⟨lineBefore.dropLast, by decide +kernel⟩
  have hafter : FollowsLine lineAfter := Or.inr ⟨lineAfter.tail, by decide +kernel⟩
  constructor
  · exact testrealpasswd_adds_chrootsh_jail_iff (betweenLines nestedJail) lineBefore lineAfter
      nestedJail ["/srv/a/".toList] ["/srv/b/".toList] rfl hbefore hafter (by decide +kernel)
      (by decide +kernel)
  · have h := (testrealpasswd_adds_chrootsh_jail_iff (betweenLines plainJail) lineBefore lineAfter
      plainJail ["/srv/a/".toList] ["/srv/b/".toList] rfl hbefore hafter (by decide +kernel)
      (by decide +kernel)).mpr ⟨plainJail_oneSeparator, by decide⟩
    exact h.trans (by decide +kernel)

/-- The jail that the user enters is not in the list. -/
theorem testrealpasswd_misses_nestedJail :
    testrealpasswd (oneLine nestedJail.text) = some ["/jail/".toList] ∧
      getjaildir nestedJail.home = some ("/jail/./home".toList, "/u".toList) := by
  decide +kernel

end Jailkit.Check
