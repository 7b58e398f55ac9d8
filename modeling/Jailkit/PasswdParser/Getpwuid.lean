import Jailkit.PasswdParser.FindLine
import Jailkit.Wrapper.Calls

/-!
`internal_getpwuid`: the number of the user is written into ten bytes, which are enough for
nine digits.
-/
namespace Jailkit.PasswdParser

open JkLib
open Wrapper (Passwd)

def toInt (n : Nat) : Int := if n % 2 ^ 32 < 2 ^ 31 then (n % 2 ^ 32 : Nat) else (n % 2 ^ 32 : Nat) - 2 ^ 32

def printInt (n : Int) : Text := if n < 0 then '-' :: pyStr n.natAbs else pyStr n.natAbs

/-- `snprintf(find, 10, "%d", (int)uid)`: one of the ten bytes is for the NUL. -/
def findText (uid : Nat) : Text := (printInt (toInt uid)).take 9

/-- `strtol` in base 10, with 64 bits. -/
def strtol (t : Text) : Int :=
  match t.dropWhile isspace with
  | '-' :: t => max (-(Nat.ofDigitChars 10 (t.takeWhile Char.isDigit) 0 : Int)) (-2 ^ 63)
  | '+' :: t => min (Nat.ofDigitChars 10 (t.takeWhile Char.isDigit) 0) (2 ^ 63 - 1)
  | t => min (Nat.ofDigitChars 10 (t.takeWhile Char.isDigit) 0) (2 ^ 63 - 1)

/-- `atoi` as a bit pattern: what is left of a `long` in an `int`. -/
def atoi (t : Text) : Nat := (strtol t % 2 ^ 32).toNat

/-- `int_field_from_line`; the field that is not there is -1. -/
def intFieldFromLine (line : Text) (field : Int) : Nat :=
  match fieldFromLine line field with
  | some tmp => atoi tmp
  | none => 2 ^ 32 - 1

/-- The part of `internal_getpwuid` after the line has been found. -/
def passwdFromLine (line : Text) (uid : Nat) : Option Passwd :=
  let pw_gid := intFieldFromLine line 3
  match fieldFromLine line 0, fieldFromLine line 5, fieldFromLine line 6 with
  | some pw_name, some pw_dir, some pw_shell =>
      if pw_gid = 2 ^ 32 - 1 ∨ pw_name = [] ∨ pw_dir = [] ∨ pw_shell = [] then none
      else some ⟨pw_name, uid, pw_gid, pw_dir, pw_shell⟩
  | _, _, _ => none

/-- `internal_getpwuid`; the outer `none` where the search has not ended within the fuel. -/
def internalGetpwuid (file : Option Text) (uid fuel : Nat) : Option (Option Passwd) :=
  (findLine file (findText uid) 2 fuel).map fun line => line.bind fun line => passwdFromLine line uid

/-- The first line whose third field is the numeral. -/
def lineOfUid (lines : List Text) (uid : Nat) : Option Text :=
  lines.find? fun line => decide (fieldOf line 2 = some (pyStr uid))

structure Complete (line : Text) : Prop where
  gid : ∃ t, fieldOf line 3 = some t ∧ t ≠ [] ∧ (∀ c ∈ t, c.isDigit = true) ∧
    Nat.ofDigitChars 10 t 0 < 2 ^ 31
  name : ∃ c t, fieldOf line 0 = some (c :: t)
  dir : ∃ c t, fieldOf line 5 = some (c :: t)
  shell : ∃ c t, fieldOf line 6 = some (c :: t)

/-- The result comes from the line that was found, which is the first of this user, and a
complete line of the user gives a result. -/
structure RightUser (file : Text) (uid fuel : Nat) : Prop where
  ends : (internalGetpwuid (some file) uid fuel).isSome
  built : ∀ pw, internalGetpwuid (some file) uid fuel = some (some pw) → ∃ line,
    findLine (some file) (findText uid) 2 fuel = some (some line) ∧
      lineOfUid (linesOf file) uid = some line ∧ fieldOf line 0 = some pw.pw_name ∧
      fieldOf line 5 = some pw.pw_dir ∧ fieldOf line 6 = some pw.pw_shell
  found : ∀ line, lineOfUid (linesOf file) uid = some line → Complete line →
    internalGetpwuid (some file) uid fuel ≠ some none

/-- A line of the user cannot be taken for another one, or is not needed: nothing comes from
the line that is found, and the user has no complete line. -/
def NumberHarmless (lines : List Text) (uid : Nat) : Prop :=
  uid < 10 ^ 9 ∧ CutHarmless (fun line => decide (fieldOf line 2 = some (pyStr uid))) lines ∨
    (∀ line, searchLines (matching (findText uid) 2) lines = some line →
      passwdFromLine line uid = none) ∧
    ∀ line, lineOfUid lines uid = some line → ¬ Complete line

section

variable {line file t : Text} {lines : List Text} {uid fuel : Nat} {wanted : Text → Bool}

/-- Nine digits are kept. -/
theorem findText_eq_iff : findText uid = pyStr uid ↔ uid < 10 ^ 9 := by
  have hlen : (pyStr uid).length ≤ 9 ↔ uid < 10 ^ 9 :=
    Nat.length_toDigits_le_iff (by decide) (by decide)
  constructor
  · intro h
    rw [← hlen, ← h]
    exact List.length_take_le _ _
  · intro h
    have hint : toInt uid = uid := by
      rw [toInt, Nat.mod_eq_of_lt (by omega), if_pos (by omega)]
    rw [findText, hint, printInt, if_neg (by omega), Int.natAbs_natCast,
      List.take_of_length_le (hlen.mpr h)]

theorem searchLines_wanted (h : searchLines wanted lines = some line) : wanted line = true := by
  induction lines with
  | nil => cases h
  | cons l lines ih =>
      rw [searchLines] at h
      split at h
      · split at h
        next hwanted =>
          cases h
          exact hwanted
        next => exact ih h
      · split at h
        next hwanted =>
          cases h
          exact hwanted
        next => cases h

theorem atoi_digits (hne : t ≠ []) (hdigits : ∀ c ∈ t, c.isDigit = true)
    (hlt : Nat.ofDigitChars 10 t 0 < 2 ^ 31) : atoi t = Nat.ofDigitChars 10 t 0 := by
  have hstrtol : strtol t = Nat.ofDigitChars 10 t 0 := by
    obtain ⟨c, t', rfl⟩ := List.exists_cons_of_ne_nil hne
    have hc := hdigits c List.mem_cons_self
    have hspace := isspace_of_isDigit hc
    have hall : (c :: t').takeWhile Char.isDigit = c :: t' := List.takeWhile_eq_self_iff.mpr hdigits
    rw [strtol, List.dropWhile_cons_of_neg (by simp [hspace])]
    split
    next heq =>
      rw [(List.cons.inj heq).1] at hc
      cases hc
    next heq =>
      rw [(List.cons.inj heq).1] at hc
      cases hc
    next =>
      rw [hall]
      omega
  rw [atoi, hstrtol]
  omega

theorem passwdFromLine_isSome (h : Complete line) : (passwdFromLine line uid).isSome := by
  obtain ⟨tmp, htmp, hne, hdigits, hlt⟩ := h.gid
  obtain ⟨c, name, hname⟩ := h.name
  obtain ⟨d, dir, hdir⟩ := h.dir
  obtain ⟨e, shell, hshell⟩ := h.shell
  have hgid : intFieldFromLine line 3 ≠ 2 ^ 32 - 1 := by
    simp only [intFieldFromLine, fieldFromLine_eq, htmp, atoi_digits hne hdigits hlt]
    omega
  simp only [passwdFromLine, fieldFromLine_eq, hname, hdir, hshell, hgid, reduceCtorEq, or_self,
    if_false, Option.isSome_some]

theorem passwdFromLine_fields {pw : Passwd} (h : passwdFromLine line uid = some pw) :
    fieldOf line 0 = some pw.pw_name ∧ fieldOf line 5 = some pw.pw_dir ∧
      fieldOf line 6 = some pw.pw_shell := by
  simp only [passwdFromLine, fieldFromLine_eq] at h
  split at h
  next name dir shell hname hdir hshell =>
    split at h
    · cases h
    · cases h
      exact ⟨hname, hdir, hshell⟩
  next => cases h

theorem internalGetpwuid_eq (hfuel : 2 * file.length + 3 ≤ fuel) :
    internalGetpwuid (some file) uid fuel =
      some ((searchLines (matching (findText uid) 2) (linesOf file)).bind fun line =>
        passwdFromLine line uid) := by
  rw [internalGetpwuid, findLine_eq hfuel]
  rfl

theorem numberHarmless_of_rightUser (hfuel : 2 * file.length + 3 ≤ fuel)
    (h : RightUser file uid fuel) : NumberHarmless (linesOf file) uid := by
  by_cases hpasses : ∃ line pw, searchLines (matching (findText uid) 2) (linesOf file) = some line ∧
      passwdFromLine line uid = some pw
  · obtain ⟨line, pw, hline, hpw⟩ := hpasses
    have hresult : internalGetpwuid (some file) uid fuel = some (some pw) := by
      rw [internalGetpwuid_eq hfuel, hline, Option.bind_some, hpw]
    obtain ⟨line', hline', huid, -⟩ := h.built pw hresult
    rw [findLine_eq hfuel, hline] at hline'
    cases hline'
    have hfind : findText uid = pyStr uid := by
      have hseen := searchLines_wanted hline
      have hthird := List.find?_some huid
      rw [matching_eq, decide_eq_true_eq] at hseen
      rw [decide_eq_true_eq, hseen] at hthird
      exact Option.some.inj hthird
    refine Or.inl ⟨findText_eq_iff.mp hfind, ?_⟩
    rw [← searchLines_eq_iff, ← lineOfUid, huid, ← hfind, ← matching_eq, hline]
  · refine Or.inr ⟨fun line hline => ?_, fun line hline hcomplete => ?_⟩
    · cases hpw : passwdFromLine line uid with
      | none => rfl
      | some pw => exact absurd ⟨line, pw, hline, hpw⟩ hpasses
    · apply h.found line hline hcomplete
      rw [internalGetpwuid_eq hfuel]
      cases hs : searchLines (matching (findText uid) 2) (linesOf file) with
      | none => rfl
      | some line' =>
          cases hpw : passwdFromLine line' uid with
          | none => simp [hpw]
          | some pw => exact absurd ⟨line', pw, hs, hpw⟩ hpasses

theorem rightUser_of_numberHarmless (hfuel : 2 * file.length + 3 ≤ fuel)
    (h : NumberHarmless (linesOf file) uid) : RightUser file uid fuel := by
  have hresult : internalGetpwuid (some file) uid fuel =
      some ((searchLines (matching (findText uid) 2) (linesOf file)).bind fun line =>
        passwdFromLine line uid) := internalGetpwuid_eq hfuel
  have hends : (internalGetpwuid (some file) uid fuel).isSome := by
    rw [hresult]
    rfl
  cases h with
  | inl h =>
      obtain ⟨huid, hcut⟩ := h
      have hline : searchLines (matching (findText uid) 2) (linesOf file) =
          lineOfUid (linesOf file) uid := by
        rw [findText_eq_iff.mpr huid, matching_eq, searchLines_eq_iff.mpr hcut, lineOfUid]
      have hsearch : findLine (some file) (findText uid) 2 fuel =
          some (lineOfUid (linesOf file) uid) := by rw [findLine_eq hfuel, hline]
      rw [hline] at hresult
      refine ⟨hends, fun pw hpw => ?_, fun line huid hcomplete hnone => ?_⟩
      · rw [hresult] at hpw
        obtain ⟨line, huid, hfrom⟩ := Option.bind_eq_some_iff.mp (Option.some.inj hpw)
        exact ⟨line, hsearch.trans (congrArg some huid), huid, passwdFromLine_fields hfrom⟩
      · rw [hresult, huid] at hnone
        have hsome : (passwdFromLine line uid).isSome := passwdFromLine_isSome hcomplete
        rw [show passwdFromLine line uid = none from Option.some.inj hnone] at hsome
        cases hsome
  | inr h =>
      refine ⟨hends, fun pw hpw => ?_, fun line huid hcomplete => ?_⟩
      · rw [hresult] at hpw
        obtain ⟨line, hline, hfrom⟩ := Option.bind_eq_some_iff.mp (Option.some.inj hpw)
        rw [h.1 line hline] at hfrom
        cases hfrom
      · exact absurd hcomplete (h.2 line huid)

end

/-- A number of ten digits is taken for another one. -/
theorem internalGetpwuid_right_iff (file : Text) (uid : Nat) :
    (∃ n, ∀ fuel, n ≤ fuel → RightUser file uid fuel) ↔ NumberHarmless (linesOf file) uid := by
  constructor
  · intro ⟨n, h⟩
    exact numberHarmless_of_rightUser (Nat.le_max_right n _) (h _ (Nat.le_max_left _ _))
  · intro h
    exact ⟨2 * file.length + 3, fun fuel hfuel => rightUser_of_numberHarmless hfuel h⟩

/-- The second user has the first nine digits of the number of the first one. -/
def tenDigits : Text :=
  "u:x:1000000000:5::/h:/s".toList ++ '\n' :: "v:x:100000000:6::/k:/t".toList

/-- The user gets the name, the home and the shell of the other one. -/
theorem internalGetpwuid_takes_other :
    (∀ line ∈ linesOf tenDigits, line.length < BLOCKSIZE) ∧
      ¬ ∃ n, ∀ fuel, n ≤ fuel → RightUser tenDigits 1000000000 fuel := by
  refine ⟨by decide, ?_⟩
  intro ⟨n, h⟩
  have hfuel : 2 * tenDigits.length + 3 ≤ max n (2 * tenDigits.length + 3) := Nat.le_max_right _ _
  have hline : searchLines (matching (findText 1000000000) 2) (linesOf tenDigits) =
      some "v:x:100000000:6::/k:/t".toList := by decide
  have hresult : internalGetpwuid (some tenDigits) 1000000000 (max n (2 * tenDigits.length + 3)) =
      some (some ⟨"v".toList, 1000000000, 6, "/k".toList, "/t".toList⟩) := by
    rw [internalGetpwuid_eq hfuel, hline]
    decide
  obtain ⟨line, hsearch, huid, -⟩ := (h _ (Nat.le_max_left _ _)).built _ hresult
  rw [findLine_eq hfuel, hline] at hsearch
  cases hsearch
  exact absurd huid (by decide)

end Jailkit.PasswdParser
