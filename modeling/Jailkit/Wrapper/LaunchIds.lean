import Jailkit.Wrapper.Chrootlaunch
import Mathlib.Data.List.TakeWhile

/-!
`parse_uid` and `parse_gid` of jk_chrootlaunch.c over a database of users and groups: a text
that begins with a digit is a number, as much of it as `strtol` reads.
-/
namespace Jailkit.Wrapper

def byNumber (entries : List (Text × UInt32)) (id : Nat) : Option UInt32 :=
  (entries.find? fun e => e.2.toNat = id).map Prod.snd

def byName (entries : List (Text × UInt32)) (name : Text) : Option UInt32 :=
  (entries.find? fun e => e.1 = name).map Prod.snd

def accountsOf (users groups : List (Text × UInt32)) : Accounts :=
  ⟨byNumber users, byName users, byNumber groups, byName groups⟩

def numeral (t : Text) : Nat := Nat.ofDigitChars 10 t 0

def IsNumeral (t : Text) : Prop := t ≠ [] ∧ ∀ c ∈ t, c.isDigit = true

/-- Who gets an id has given its numeral, or a name that has it. -/
def MeansId (parse : Option Text → Cmd UInt32) (entries : List (Text × UInt32)) (tmpstr : Text) :
    Prop :=
  ∀ id, parse (some tmpstr) = pure id →
    IsNumeral tmpstr ∧ numeral tmpstr = id.toNat ∨ (tmpstr, id) ∈ entries

/-- What is left in an `int` of the digits at the beginning. -/
def numberRead (tmpstr : Text) : Nat :=
  min (numeral (tmpstr.takeWhile Char.isDigit)) LONG_MAX % 2 ^ 32

/-- A name, a numeral below 2^31, a number that is refused, or else one that the entry with
this name has. -/
def ReadAsMeant (entries : List (Text × UInt32)) (tmpstr : Text) : Prop :=
  tmpstr.head?.any Char.isDigit = false ∨
    IsNumeral tmpstr ∧ numeral tmpstr < 2 ^ 31 ∨
    2 ^ 31 ≤ numberRead tmpstr ∨
    (∀ e ∈ entries, e.2.toNat ≠ numberRead tmpstr) ∨
    ∃ id, (tmpstr, id) ∈ entries ∧ id.toNat = numberRead tmpstr

section

variable {entries : List (Text × UInt32)} {tmpstr : Text} {id : UInt32} {n : Nat}

theorem digit_eq (c : Char) :
    Ini.digit 10 c = if c.isDigit then some (c.toNat - '0'.toNat) else none := by
  have hiff : ('0' ≤ c ∧ c.toNat < '0'.toNat + 10) ↔ c.isDigit = true := by
    simp only [Char.isDigit, Char.le_def, Bool.and_eq_true, decide_eq_true_eq, Char.toNat,
      UInt32.le_iff_toNat_le]
    have hnine : ('9'.val).toNat = 57 := rfl
    have hzero : ('0'.val).toNat = 48 := rfl
    omega
  simp only [Ini.digit, hiff]

theorem digits_eq (t : Text) (n : Nat) :
    Ini.digits 10 n t = Nat.ofDigitChars 10 (t.takeWhile Char.isDigit) n := by
  induction t generalizing n with
  | nil => rfl
  | cons c t ih =>
      rw [Ini.digits, digit_eq]
      by_cases hc : c.isDigit = true
      · rw [if_pos hc, List.takeWhile_cons_of_pos hc]
        dsimp only
        rw [ih, Nat.ofDigitChars_cons, Nat.mul_comm]
      · rw [if_neg hc, List.takeWhile_cons_of_neg hc]
        rfl

theorem byNumber_eq_some (h : byNumber entries n = some id) : id.toNat = n := by
  obtain ⟨e, he, hid⟩ := Option.map_eq_some_iff.mp h
  have hn := List.find?_some he
  rw [← hid]
  exact of_decide_eq_true hn

theorem byNumber_eq_none : byNumber entries n = none ↔ ∀ e ∈ entries, e.2.toNat ≠ n := by
  simp [byNumber]

theorem byName_eq_some (h : byName entries tmpstr = some id) : (tmpstr, id) ∈ entries := by
  obtain ⟨e, he, hid⟩ := Option.map_eq_some_iff.mp h
  have hname := List.find?_some he
  have hname : e.1 = tmpstr := of_decide_eq_true hname
  have hmem := List.mem_of_find?_eq_some he
  rwa [← hname, ← hid]

theorem strtol_eq (t : Text) :
    strtol t = min (numeral (t.takeWhile Char.isDigit)) LONG_MAX := by
  rw [strtol, digits_eq, numeral]

theorem numberRead_of_isNumeral (h : IsNumeral tmpstr) :
    numberRead tmpstr = min (numeral tmpstr) LONG_MAX % 2 ^ 32 := by
  rw [numberRead, List.takeWhile_eq_self_iff.mpr h.2]

theorem lookupId_number (hdigit : tmpstr.head?.any Char.isDigit = true) :
    lookupId (byNumber entries) (byName entries) tmpstr =
      if numberRead tmpstr < 2 ^ 31 then byNumber entries (numberRead tmpstr) else none := by
  rw [lookupId, if_pos hdigit]
  simp only [strtol_eq, numberRead]
  rfl

theorem lookupId_name (hdigit : tmpstr.head?.any Char.isDigit = false) :
    lookupId (byNumber entries) (byName entries) tmpstr = byName entries tmpstr := by
  rw [lookupId, if_neg (by rw [hdigit]; exact Bool.false_ne_true)]

theorem parseId_eq_pure {number : Nat → Option UInt32} {name : Text → Option UInt32} :
    parseId number name (some tmpstr) = pure id ↔ lookupId number name tmpstr = some id := by
  rw [parseId]
  cases lookupId number name tmpstr with
  | none => exact ⟨nofun, nofun⟩
  | some found =>
      constructor
      · intro h
        cases h
        rfl
      · intro h
        cases h
        rfl

/-- A numeral is the number that is read exactly when it is below 2^31. -/
theorem numeral_eq_numberRead_iff (hnum : IsNumeral tmpstr) (hread : numberRead tmpstr < 2 ^ 31) :
    numeral tmpstr = numberRead tmpstr ↔ numeral tmpstr < 2 ^ 31 := by
  have heq := numberRead_of_isNumeral hnum
  have hmax : LONG_MAX = 2 ^ 63 - 1 := rfl
  constructor
  · intro h
    rw [h]
    exact hread
  · intro h
    rw [heq]
    omega

theorem meansId_iff {parse : Option Text → Cmd UInt32}
    (hparse : parse = parseId (byNumber entries) (byName entries)) :
    MeansId parse entries tmpstr ↔ ReadAsMeant entries tmpstr := by
  rw [MeansId, hparse]
  simp only [parseId_eq_pure]
  by_cases hdigit : tmpstr.head?.any Char.isDigit = true
  · rw [lookupId_number hdigit]
    constructor
    · intro h
      by_cases hread : numberRead tmpstr < 2 ^ 31
      · rw [if_pos hread] at h
        cases hfind : byNumber entries (numberRead tmpstr) with
        | none => exact .inr (.inr (.inr (.inl (byNumber_eq_none.mp hfind))))
        | some id =>
            have hid := byNumber_eq_some hfind
            obtain ⟨hnum, heq⟩ | hmem := h id hfind
            · rw [hid] at heq
              exact .inr (.inl ⟨hnum, (numeral_eq_numberRead_iff hnum hread).mp heq⟩)
            · exact .inr (.inr (.inr (.inr ⟨id, hmem, hid⟩)))
      · exact .inr (.inr (.inl (Nat.le_of_not_lt hread)))
    · intro h id hid
      obtain ⟨hread, hfind⟩ : numberRead tmpstr < 2 ^ 31 ∧
          byNumber entries (numberRead tmpstr) = some id := by
        split at hid
        · exact ⟨‹_›, hid⟩
        · cases hid
      have hid := byNumber_eq_some hfind
      obtain hname | ⟨hnum, hlt⟩ | hbig | hnone | ⟨id', hmem, hid'⟩ := h
      · rw [hname] at hdigit
        cases hdigit
      · rw [hid]
        exact .inl ⟨hnum, (numeral_eq_numberRead_iff hnum hread).mpr hlt⟩
      · omega
      · rw [byNumber_eq_none.mpr hnone] at hfind
        cases hfind
      · rw [UInt32.toNat_inj.mp (hid.trans hid'.symm)]
        exact .inr hmem
  · rw [Bool.not_eq_true] at hdigit
    rw [lookupId_name hdigit]
    exact iff_of_true (fun id h => .inr (byName_eq_some h)) (.inl hdigit)

end

/-- What is given to -u and to -g is read as it is meant. -/
theorem parseUid_parseGid_mean_iff (users groups : List (Text × UInt32)) (tmpstr : Text) :
    (MeansId (parseUid (accountsOf users groups)) users tmpstr ↔ ReadAsMeant users tmpstr) ∧
      (MeansId (parseGid (accountsOf users groups)) groups tmpstr ↔ ReadAsMeant groups tmpstr) :=
  ⟨meansId_iff rfl, meansId_iff rfl⟩

/-- 2^32 and a mixed string are read as root's number. -/
theorem parseUid_is_root : ¬ MeansId (parseUid (accountsOf [("root".toList, 0)] []))
      [("root".toList, 0)] "4294967296".toList ∧
    ¬ MeansId (parseUid (accountsOf [("root".toList, 0)] [])) [("root".toList, 0)]
      "0x10".toList := by
  constructor
  · intro h
    obtain ⟨-, heq⟩ | hmem := h 0 rfl
    · exact absurd heq (by decide)
    · exact absurd hmem (by decide)
  · intro h
    obtain ⟨hnum, -⟩ | hmem := h 0 rfl
    · exact absurd (hnum.2 'x' (by decide)) (by decide)
    · exact absurd hmem (by decide)

end Jailkit.Wrapper
