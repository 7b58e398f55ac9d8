import Jailkit.Check.RealPasswd

/-!
How jk_check compares the passwd file of a jail with the real one.
-/
namespace Jailkit.Check

open JkLib (readlines)

/-- What is printed; a note only in a verbose run. -/
inductive Report where
  | note (line : Text)
  | error (line : Text)
  deriving DecidableEq, Repr

def Report.isError : Report → Bool
  | .note _ => false
  | .error _ => true

def changedUser (user chroothome : Text) : Text :=
  "ERROR: user ".toList ++ user ++ " is changed in jail ".toList ++ chroothome

def otherHome (user chroothome : Text) : Text :=
  "ERROR: the real homedir and jail homedir for user ".toList ++ user ++
    " do not correspond in jail ".toList ++ chroothome

def unknownUser (user chroothome : Text) : Text :=
  "ERROR: user ".toList ++ user ++ " in jail ".toList ++ chroothome ++
    " does not exist on the real system".toList

def ignoringRoot : Text := "ignoring entry for user root in jail/etc/passwd".toList

def comparing (user : Text) : Text :=
  "comparing jailed user ".toList ++ user ++ " with the real user".toList

/-- What has been printed, and whether no `IndexError` has ended the test. -/
abbrev Tested := List Report × Bool

/-- `rpw[i] != jpw[i]`, or an `IndexError`. -/
def differ (rpw jpw : List Text) (i : Nat) : Option Bool :=
  match rpw[i]?, jpw[i]? with
  | some r, some j => some (r != j)
  | _, _ => none

/-- The number of the group is only looked at when that of the user is the same. -/
def idsDiffer (rpw jpw : List Text) : Option Bool :=
  match differ rpw jpw 2 with
  | some false => differ rpw jpw 3
  | changed => changed

def homesDiffer (chroothome : Text) (rpw jpw : List Text) : Option Bool :=
  match rpw[5]?, jpw[5]? with
  | some r, some j => some (r != chroothome ++ '.' :: j)
  | _, _ => none

def errorIf (wrong : Bool) (line : Text) : List Report := if wrong then [.error line] else []

/-- The body of the inner loop, for the line that has the name of the user. -/
def testFound (chroothome user : Text) (rpw jpw : List Text) : Tested :=
  match idsDiffer rpw jpw with
  | none => ([], false)
  | some changed =>
      match homesDiffer chroothome rpw jpw with
      | none => (errorIf changed (changedUser user chroothome), false)
      | some moved =>
          (errorIf changed (changedUser user chroothome) ++
            errorIf moved (otherHome user chroothome), true)

/-- The inner loop; it ends at the first line with the name. -/
def testReal (chroothome user : Text) (jpw : List Text) : List Text → Tested
  | [] => ([.error (unknownUser user chroothome)], true)
  | rline :: rlines =>
      let rpw := rline.splitOn ':'
      if rpw.head? = some user then testFound chroothome user rpw jpw
      else testReal chroothome user jpw rlines

def noteIf (verbose : Bool) (line : Text) : List Report := if verbose then [.note line] else []

def testJailLine (verbose : Bool) (chroothome : Text) (rlines : List Text) (jline : Text) :
    Tested :=
  let jpw := jline.splitOn ':'
  let user := jpw.headD []
  if user = "root".toList then (noteIf verbose ignoringRoot, true)
  else
    let (printed, through) := testReal chroothome user jpw rlines
    (noteIf verbose (comparing user) ++ printed, through)

def testJailLines (verbose : Bool) (chroothome : Text) (rlines : List Text) : List Text → Tested
  | [] => ([], true)
  | jline :: jlines =>
      let (printed, through) := testJailLine verbose chroothome rlines jline
      if through then
        let (printed', through) := testJailLines verbose chroothome rlines jlines
        (printed ++ printed', through)
      else (printed, false)

/-- `testjailusers`; a file that is there and cannot be opened raises an exception, too. -/
def testjailusers (verbose : Bool) (exists_ : Text → Bool) (files : Contents)
    (chroothome : Text) : Tested :=
  if exists_ (chroothome ++ etcPasswd) then
    match files (chroothome ++ etcPasswd), files etcPasswd with
    | some jailed, some real =>
        testJailLines verbose chroothome (readlines real) (readlines jailed)
    | _, _ => ([], false)
  else ([], true)

def Tested.Clean (t : Tested) : Prop := (∀ r ∈ t.1, r.isError = false) ∧ t.2 = true

/-- The two lines have the same numbers, and the homes belong together. -/
def Corresponds (chroothome : Text) (rpw jpw : List Text) : Prop :=
  ∃ uid gid home, rpw[2]? = some uid ∧ jpw[2]? = some uid ∧ rpw[3]? = some gid ∧
    jpw[3]? = some gid ∧ rpw[5]? = some (chroothome ++ '.' :: home) ∧ jpw[5]? = some home

def Accepted (chroothome : Text) (rlines : List Text) (jline : Text) : Prop :=
  let jpw := jline.splitOn ':'
  let user := jpw.headD []
  user = "root".toList ∨
    ∃ rpw, (rlines.map fun rline => rline.splitOn ':').find? (fun rpw => rpw.head? = some user) =
      some rpw ∧ Corresponds chroothome rpw jpw

section

variable {chroothome user : Text} {rpw jpw : List Text} {verbose : Bool}

theorem clean_append_iff {t : Tested} {printed : List Report}
    (h : ∀ r ∈ printed, r.isError = false) :
    Tested.Clean (printed ++ t.1, t.2) ↔ t.Clean := by
  simp only [Tested.Clean, List.forall_mem_append]
  exact and_congr_left fun _ => and_iff_right h

theorem noteIf_harmless (line : Text) : ∀ r ∈ noteIf verbose line, r.isError = false := by
  intro r hr
  rw [noteIf] at hr
  split at hr
  · rw [List.mem_singleton.mp hr]
    rfl
  · cases hr

theorem errorIf_harmless_iff (wrong : Bool) (line : Text) :
    (∀ r ∈ errorIf wrong line, r.isError = false) ↔ wrong = false := by
  cases wrong with
  | true => simp [errorIf, Report.isError]
  | false => simp [errorIf]

theorem differ_eq_false_iff (i : Nat) :
    differ rpw jpw i = some false ↔ ∃ t, rpw[i]? = some t ∧ jpw[i]? = some t := by
  rw [differ]
  cases rpw[i]? with
  | none => simp
  | some r =>
      cases jpw[i]? with
      | none => simp
      | some j =>
          simp only [Option.some.injEq, bne_eq_false_iff_eq, exists_eq_left']
          exact eq_comm

theorem homesDiffer_eq_false_iff :
    homesDiffer chroothome rpw jpw = some false ↔
      ∃ home, rpw[5]? = some (chroothome ++ '.' :: home) ∧ jpw[5]? = some home := by
  rw [homesDiffer]
  cases rpw[5]? with
  | none => simp
  | some r =>
      cases jpw[5]? with
      | none => simp
      | some j => simp

theorem idsDiffer_eq_false_iff :
    idsDiffer rpw jpw = some false ↔
      differ rpw jpw 2 = some false ∧ differ rpw jpw 3 = some false := by
  rw [idsDiffer]
  split
  next h => simp [h]
  next h => exact ⟨fun heq => absurd heq h, fun heq => absurd heq.1 h⟩

theorem testFound_clean_iff :
    (testFound chroothome user rpw jpw).Clean ↔ Corresponds chroothome rpw jpw := by
  have hsplit : (testFound chroothome user rpw jpw).Clean ↔
      idsDiffer rpw jpw = some false ∧ homesDiffer chroothome rpw jpw = some false := by
    rw [testFound]
    cases idsDiffer rpw jpw with
    | none => simp [Tested.Clean]
    | some changed =>
        cases homesDiffer chroothome rpw jpw with
        | none => simp [Tested.Clean]
        | some moved =>
            simp only [Tested.Clean, List.forall_mem_append, errorIf_harmless_iff, and_true,
              Option.some.injEq]
  rw [hsplit, idsDiffer_eq_false_iff, differ_eq_false_iff, differ_eq_false_iff,
    homesDiffer_eq_false_iff]
  constructor
  · rintro ⟨⟨⟨uid, hu, hu'⟩, gid, hg, hg'⟩, home, hh, hh'⟩
    exact ⟨uid, gid, home, hu, hu', hg, hg', hh, hh'⟩
  · rintro ⟨uid, gid, home, hu, hu', hg, hg', hh, hh'⟩
    exact ⟨⟨⟨uid, hu, hu'⟩, gid, hg, hg'⟩, home, hh, hh'⟩

theorem testReal_clean_iff (rlines : List Text) :
    (testReal chroothome user jpw rlines).Clean ↔
      ∃ rpw, (rlines.map fun rline => rline.splitOn ':').find?
        (fun rpw => rpw.head? = some user) = some rpw ∧ Corresponds chroothome rpw jpw := by
  induction rlines with
  | nil => simp [testReal, Tested.Clean, Report.isError]
  | cons rline rlines ih =>
      rw [testReal, List.map_cons]
      split
      next hname =>
        rw [testFound_clean_iff, List.find?_cons_of_pos (by simpa using hname)]
        simp
      next hname =>
        rw [ih, List.find?_cons_of_neg (by simpa using hname)]

theorem testJailLine_clean_iff (rlines : List Text) (jline : Text) :
    (testJailLine verbose chroothome rlines jline).Clean ↔
      Accepted chroothome rlines jline := by
  simp only [testJailLine, Accepted]
  split
  next hroot => exact iff_of_true ⟨noteIf_harmless _, rfl⟩ (Or.inl hroot)
  next hroot =>
    rw [clean_append_iff (noteIf_harmless _), testReal_clean_iff]
    exact (or_iff_right hroot).symm

/-- By induction on the lines: the test goes on exactly as long as it comes through. -/
theorem testJailLines_clean_iff (rlines jlines : List Text) :
    (testJailLines verbose chroothome rlines jlines).Clean ↔
      ∀ jline ∈ jlines, Accepted chroothome rlines jline := by
  induction jlines with
  | nil => simp [testJailLines, Tested.Clean]
  | cons jline jlines ih =>
      have hfirst : (testJailLine verbose chroothome rlines jline).Clean ↔ _ :=
        testJailLine_clean_iff rlines jline
      rw [List.forall_mem_cons, ← hfirst, ← ih, testJailLines]
      cases hthrough : (testJailLine verbose chroothome rlines jline).2 with
      | false => simp [Tested.Clean, hthrough]
      | true => simp [Tested.Clean, hthrough, or_imp, forall_and, and_assoc]

/-- The test of a jail's users is silent exactly if every line but those of root has a line
to go with it. -/
theorem testjailusers_clean_iff {exists_ : Text → Bool} {files : Contents} {real jailed : Text}
    (hthere : exists_ (chroothome ++ etcPasswd) = true)
    (hjailed : files (chroothome ++ etcPasswd) = some jailed)
    (hreal : files etcPasswd = some real) :
    (testjailusers verbose exists_ files chroothome).Clean ↔
      ∀ jline ∈ readlines jailed, Accepted chroothome (readlines real) jline := by
  rw [testjailusers, if_pos hthere, hjailed, hreal, testJailLines_clean_iff]

end

end Jailkit.Check
