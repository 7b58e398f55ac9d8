import Jailkit.Ini.Exact

/-!
How the programs select their section and what they read of its numbers. A number
that is absent is 0 at the end of the file and -1 before another section.
-/
namespace Jailkit.Ini

/-- The section of the user, else of the group, else `DEFAULT`: its name and the text
left unread behind its header. -/
def selectSection (memory : Memory) (file user group : Text) : Option (CString × Text) :=
  let user := cstring memory user
  let groupsec := cstring memory ("group ".toList ++ group)
  let default := cstring memory "DEFAULT".toList
  match iniparserHasSection file user with
  | some unread => some (user, unread)
  | none =>
      match iniparserHasSection file groupsec with
      | some unread => some (groupsec, unread)
      | none => (iniparserHasSection file default).map fun unread => (default, unread)

/-- `iniparser_get_position(parser) - strlen(section) - 2` in an `unsigned int`. -/
def sectionPosition (file unread : Text) (sec : CString) : Int :=
  ((file.length - unread.length : Int) - sec.text.length - 2) % 2 ^ 32

/-- A string option, where its value is not empty. -/
def stringOption (memory : Memory) (file : Text) (sec : CString) (pos : Int)
    (key : String) : Option Text :=
  let a := iniparserGetStringAtPosition file sec (cstring memory key.toList) pos 1024
  if a.ret > 0 then some (cText a.buffer) else none

def intOption (memory : Memory) (file : Text) (sec : CString) (pos : Int)
    (key : String) : Nat :=
  iniparserGetIntAtPosition file sec (cstring memory key.toList) pos

/-- `body`, the text behind a section header, has before the next header line a line
`K = V` where `K` is the key; `r` is the text behind its `=`. -/
def LineIn (body key r : Text) : Prop :=
  ∃ B K, body = B ++ '\n' :: (K ++ '=' :: r) ∧ NoHeader B ∧ '\n' ∉ K ∧
    K.head? ≠ some '#' ∧ trim K = key

/-- The number written at the start of a text, of any size. -/
def magnitude (base : Nat) (t : Text) : Nat :=
  match t.dropWhile isspace with
  | '-' :: t' => digits base 0 t'
  | '+' :: t' => digits base 0 t'
  | t' => digits base 0 t'

def readNumber (base : Nat) (r : Text) : Nat :=
  sscanf base (stripString (cText (readValue 25 '=' false [] r).buffer))

/-- The key is reported absent because another section is met. -/
def RunsIntoSection (sec key : CString) (text : Text) : Prop :=
  ∃ t r, text = t ++ '[' :: r ∧ MeetsSection sec key t

/-- A number with this property is taken for the one of the key. -/
def TakesNumber (sec key : CString) (text : Text) (base : Nat) (P : Nat → Prop) : Prop :=
  ∃ t r, text = t ++ '=' :: r ∧ TakesKey sec key t ∧ P (readNumber base r)

theorem number_of_section {base : Nat} {file : Text} {sec key : CString} {position : Int}
    (h : RunsIntoSection sec key (fseek file position)) :
    iniparserGetNumberAtPosition base file sec key position = minusOne := by
  obtain ⟨t, r, htext, ht⟩ := h
  simp only [iniparserGetNumberAtPosition, iniparserGetStringAtPosition, htext,
    meetsSection_scanLoop sec key 25 ht, ite_true]

theorem number_of_value {base : Nat} {file t r : Text} {sec key : CString} {position : Int}
    (htext : fseek file position = t ++ '=' :: r) (ht : TakesKey sec key t) :
    iniparserGetNumberAtPosition base file sec key position = readNumber base r := by
  have hret : (readValue 25 '=' false [] r).ret ≠ -1 := by
    rw [(readValue_ret 25 '=' false [] r).1]
    omega
  simp only [iniparserGetNumberAtPosition, iniparserGetStringAtPosition, htext,
    takesKey_scanLoop sec key 25 ht, hret, ite_false, readNumber]

theorem number_of_exhausted {base : Nat} {file : Text} {sec key : CString} {position : Int}
    (h : Exhausted sec key (fseek file position)) :
    iniparserGetNumberAtPosition base file sec key position = 0 := by
  simp only [iniparserGetNumberAtPosition, iniparserGetStringAtPosition,
    exhausted_scanLoop sec key 25 h]
  rfl

/-- What a numeric reader answers, by where its lookup ends. -/
theorem number_spec (base : Nat) (file : Text) (sec key : CString) (position : Int)
    (P : Nat → Prop) :
    P (iniparserGetNumberAtPosition base file sec key position) ↔
      RunsIntoSection sec key (fseek file position) ∧ P minusOne ∨
      TakesNumber sec key (fseek file position) base P ∨
      Exhausted sec key (fseek file position) ∧ P 0 := by
  constructor
  · intro h
    cases lookup_cases sec key (fseek file position) with
    | value t r htext ht =>
        rw [number_of_value htext ht] at h
        exact Or.inr (Or.inl ⟨t, r, htext, ht, h⟩)
    | «section» t r htext ht =>
        have hsection : RunsIntoSection sec key (fseek file position) := ⟨t, r, htext, ht⟩
        rw [number_of_section hsection] at h
        exact Or.inl ⟨hsection, h⟩
    | exhausted hend =>
        rw [number_of_exhausted hend] at h
        exact Or.inr (Or.inr ⟨hend, h⟩)
  · rintro (⟨hsection, h⟩ | ⟨t, r, htext, ht, h⟩ | ⟨hend, h⟩)
    · rwa [number_of_section hsection]
    · rwa [number_of_value htext ht]
    · rwa [number_of_exhausted hend]

theorem number_ne_zero (base : Nat) (file : Text) (sec key : CString) (position : Int) :
    iniparserGetNumberAtPosition base file sec key position ≠ 0 ↔
      RunsIntoSection sec key (fseek file position) ∨
      TakesNumber sec key (fseek file position) base (· ≠ 0) := by
  rw [number_spec base file sec key position (· ≠ 0)]
  simp [minusOne]

theorem number_eq_minusOne (base : Nat) (file : Text) (sec key : CString) (position : Int) :
    iniparserGetNumberAtPosition base file sec key position = minusOne ↔
      RunsIntoSection sec key (fseek file position) ∨
      TakesNumber sec key (fseek file position) base (· = minusOne) := by
  rw [number_spec base file sec key position (· = minusOne)]
  simp [minusOne]

end Jailkit.Ini
