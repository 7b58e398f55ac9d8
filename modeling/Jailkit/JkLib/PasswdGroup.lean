import Jailkit.JkLib.PyFile

/-!
How jk_lib copies users and groups to the passwd and group files of the jail, on Linux.
A result of `none` is an `IndexError`.
-/
namespace Jailkit.JkLib

/-- The first field or the third one is wanted; the third is read when the first is not. -/
def fieldsWanted (wanted fields : List Text) : Option Bool := do
  let name ← fields[0]?
  if name ∈ wanted then some true
  else do
    let number ← fields[2]?
    some (number ∈ wanted)

/-- The scan of a file of the jail, for lines with so many fields. -/
def dropPresent (num : Nat) : List Text → List Text → Option (List Text)
  | [], wanted => some wanted
  | line :: lines, wanted => do
      let fields := line.splitOn ':'
      if fields.length < num then dropPresent num lines wanted
      else if ← fieldsWanted wanted fields then do
        let wanted := wanted.erase (← fields[0]?)
        let wanted := wanted.erase (← fields[2]?)
        dropPresent num lines wanted
      else dropPresent num lines wanted

/-- The text written and the groups wanted, with those of the users written. -/
def copyUsers (users : List Text) : List Text → List Text → Option (Text × List Text)
  | [], groups => some ([], groups)
  | line :: lines, groups => do
      let fields := line.splitOn ':'
      if fields.length < 3 then copyUsers users lines groups
      else if ← fieldsWanted users fields then do
        let gid ← fields[3]?
        let groups := if gid ∈ groups then groups else groups ++ [gid]
        let (text, groups) ← copyUsers users lines groups
        some (line ++ text, groups)
      else copyUsers users lines groups

def copyGroups (groups : List Text) : List Text → Option Text
  | [] => some []
  | line :: lines => do
      let fields := line.splitOn ':'
      if fields.length < 2 then copyGroups groups lines
      else if ← fieldsWanted groups fields then do
        let text ← copyGroups groups lines
        some (line ++ text)
      else copyGroups groups lines

/-- The two files afterwards, and the lists of the caller, which the call changes. -/
structure Populated where
  users : List Text
  groups : List Text
  passwd : Text
  group : Text
  deriving DecidableEq, Repr

/-- The real file is opened only for somebody. -/
def writeUsers (users : List Text) (real : Text) (groups : List Text) :
    Option (Text × List Text) :=
  if users = [] then some ([], groups) else copyUsers users (readlines real) groups

def writeGroups (groups : List Text) (real : Text) : Option Text :=
  if groups = [] then some [] else copyGroups groups (readlines real)

def initPasswdAndGroup (realPasswd realGroup : Text) (users groups : List Text)
    (passwd group : Option Text) : Option Populated := do
  let passwd := passwd.getD []
  let users ← dropPresent 3 (readlines passwd) users
  let (text, groups) ← writeUsers users realPasswd groups
  let passwd := passwd ++ text
  let group := group.getD []
  let groups ← dropPresent 2 (readlines group) groups
  let text ← writeGroups groups realGroup
  some ⟨users, groups, passwd, group ++ text⟩

/-- The name or the number of the line, which has both. -/
def Marks (line n : Text) : Prop :=
  3 ≤ (line.splitOn ':').length ∧
    ((line.splitOn ':')[0]? = some n ∨ (line.splitOn ':')[2]? = some n)

instance (line n : Text) : Decidable (Marks line n) := inferInstanceAs (Decidable (_ ∧ _))

def Wanted (wanted : List Text) (line : Text) : Prop := ∃ n ∈ wanted, Marks line n

instance (wanted : List Text) (line : Text) : Decidable (Wanted wanted line) :=
  inferInstanceAs (Decidable (∃ n ∈ wanted, Marks line n))

def unmarked (lines wanted : List Text) : List Text :=
  wanted.filter fun n => ¬ ∃ line ∈ lines, Marks line n

def taken (wanted lines : List Text) : List Text := lines.filter fun line => Wanted wanted line

/-- The groups wanted, with the group numbers of the users of these lines. -/
def withGids : List Text → List Text → List Text
  | groups, [] => groups
  | groups, line :: lines =>
      let gid := (line.splitOn ':')[3]?.getD []
      withGids (if gid ∈ groups then groups else groups ++ [gid]) lines

section

variable {line name passwd number : Text} {fields lines wanted users groups : List Text}

theorem exists_fields (h : 3 ≤ (line.splitOn ':').length) :
    ∃ name passwd number fields, line.splitOn ':' = name :: passwd :: number :: fields := by
  match hsplit : line.splitOn ':', h with
  | name :: passwd :: number :: fields, _ => exact ⟨name, passwd, number, fields, rfl⟩

theorem marks_iff (hsplit : line.splitOn ':' = name :: passwd :: number :: fields) (n : Text) :
    Marks line n ↔ n = name ∨ n = number := by
  simp [Marks, hsplit, eq_comm]

theorem not_marks_of_short (h : (line.splitOn ':').length < 3) (n : Text) : ¬ Marks line n :=
  fun hmarks => absurd hmarks.1 (by omega)

theorem fieldsWanted_eq (hsplit : line.splitOn ':' = name :: passwd :: number :: fields) :
    fieldsWanted wanted (line.splitOn ':') = some (decide (Wanted wanted line)) := by
  have hwanted : Wanted wanted line ↔ name ∈ wanted ∨ number ∈ wanted := by
    simp only [Wanted, marks_iff hsplit]
    constructor
    · intro h
      obtain ⟨n, hn, heq⟩ := h
      cases heq with
      | inl h => exact Or.inl (h ▸ hn)
      | inr h => exact Or.inr (h ▸ hn)
    · intro h
      cases h with
      | inl h => exact ⟨name, h, Or.inl rfl⟩
      | inr h => exact ⟨number, h, Or.inr rfl⟩
  simp only [hsplit, fieldsWanted, List.getElem?_cons_zero, List.getElem?_cons_succ,
    Option.bind_eq_bind, Option.bind_some, hwanted]
  by_cases hname : name ∈ wanted
  · simp [hname]
  · simp [hname]

theorem unmarked_cons (line : Text) (lines wanted : List Text) :
    unmarked (line :: lines) wanted = unmarked lines (unmarked [line] wanted) := by
  simp only [unmarked, List.filter_filter]
  apply List.filter_congr
  intro n _
  simp [Bool.and_comm]

theorem unmarked_short (h : (line.splitOn ':').length < 3) : unmarked [line] wanted = wanted := by
  rw [unmarked, List.filter_eq_self]
  intro n _
  simpa using not_marks_of_short h n

/-- To remove the name and the number is to keep what the line does not mark. -/
theorem unmarked_erase (hsplit : line.splitOn ':' = name :: passwd :: number :: fields)
    (hwanted : wanted.Nodup) :
    (wanted.erase name).erase number = unmarked [line] wanted := by
  rw [(hwanted.erase name).erase_eq_filter, hwanted.erase_eq_filter, List.filter_filter, unmarked]
  apply List.filter_congr
  intro n _
  rw [Bool.eq_iff_iff]
  simp [marks_iff hsplit, and_comm]

theorem unmarked_of_not_wanted (h : ¬ Wanted wanted line) : unmarked [line] wanted = wanted := by
  rw [unmarked, List.filter_eq_self]
  intro n hn
  simpa using fun hmarks => h ⟨n, hn, hmarks⟩

theorem nodup_unmarked (lines : List Text) (h : wanted.Nodup) : (unmarked lines wanted).Nodup :=
  h.filter _

theorem dropPresent_eq {num : Nat}
    (hlines : ∀ l ∈ lines, (l.splitOn ':').length < num ∨ 3 ≤ (l.splitOn ':').length)
    (hnum : num ≤ 3) (hwanted : wanted.Nodup) :
    dropPresent num lines wanted = some (unmarked lines wanted) := by
  induction lines generalizing wanted with
  | nil => simp [dropPresent, unmarked]
  | cons line lines ih =>
      have ih := fun {w : List Text} => @ih w fun l hl => hlines l (List.mem_cons_of_mem line hl)
      rw [dropPresent, unmarked_cons]
      cases hlines line List.mem_cons_self with
      | inl hshort => rw [if_pos hshort, unmarked_short (by omega), ih hwanted]
      | inr hlong =>
          obtain ⟨name, passwd, number, fields, hsplit⟩ := exists_fields hlong
          rw [if_neg (by omega), fieldsWanted_eq hsplit]
          by_cases hin : Wanted wanted line
          · have hnodup := nodup_unmarked [line] hwanted
            rw [← ih hnodup, ← unmarked_erase hsplit hwanted, hsplit]
            simp [hin]
          · rw [unmarked_of_not_wanted hin, ← ih hwanted]
            simp [hin]

theorem unmarked_subset {less : List Text} (h : less ⊆ wanted) :
    unmarked lines less ⊆ unmarked lines wanted := by
  intro n hn
  obtain ⟨hless, hnone⟩ := List.mem_filter.mp hn
  exact List.mem_filter.mpr ⟨h hless, hnone⟩

/-- A name that is wanted twice may be removed once: then it is still wanted. -/
theorem dropPresent_some {num : Nat}
    (hlines : ∀ l ∈ lines, (l.splitOn ':').length < num ∨ 3 ≤ (l.splitOn ':').length)
    (hnum : num ≤ 3) (wanted : List Text) :
    ∃ rest, dropPresent num lines wanted = some rest ∧ unmarked lines wanted ⊆ rest ∧
      rest ⊆ wanted := by
  induction lines generalizing wanted with
  | nil => exact ⟨wanted, rfl, List.filter_sublist.subset, List.Subset.refl _⟩
  | cons line lines ih =>
      have ih := ih fun l hl => hlines l (List.mem_cons_of_mem line hl)
      rw [dropPresent, unmarked_cons]
      cases hlines line List.mem_cons_self with
      | inl hshort =>
          rw [if_pos hshort, unmarked_short (by omega)]
          exact ih wanted
      | inr hlong =>
          obtain ⟨name, passwd, number, fields, hsplit⟩ := exists_fields hlong
          rw [if_neg (by omega), fieldsWanted_eq hsplit]
          by_cases hin : Wanted wanted line
          · have hkept : unmarked [line] wanted ⊆ (wanted.erase name).erase number := by
              intro n hn
              obtain ⟨hmem, hnone⟩ := List.mem_filter.mp hn
              have hmarks : ¬ Marks line n := by simpa using hnone
              rw [marks_iff hsplit, not_or] at hmarks
              exact (List.mem_erase_of_ne hmarks.2).mpr
                ((List.mem_erase_of_ne hmarks.1).mpr hmem)
            obtain ⟨rest, hrest, hleft, hsub⟩ := ih ((wanted.erase name).erase number)
            refine ⟨rest, ?_, List.Subset.trans (unmarked_subset hkept) hleft, ?_⟩
            · rw [← hrest, hsplit]
              simp [hin]
            · exact List.Subset.trans hsub
                (List.Subset.trans List.erase_subset List.erase_subset)
          · rw [unmarked_of_not_wanted hin]
            obtain ⟨rest, hrest, hbounds⟩ := ih wanted
            refine ⟨rest, ?_, hbounds⟩
            rw [← hrest]
            simp [hin]

/-- A line of two fields is an error in the group file. -/
theorem dropPresent_two (hline : line ∈ lines) (htwo : (line.splitOn ':').length = 2)
    (wanted : List Text) : dropPresent 2 lines wanted = none := by
  induction lines generalizing wanted with
  | nil => cases hline
  | cons l lines ih =>
      rw [dropPresent]
      cases List.mem_cons.mp hline with
      | inl heq =>
          rw [← heq]
          match hsplit : line.splitOn ':', htwo with
          | [name, passwd], _ =>
              by_cases hname : name ∈ wanted
              · simp [fieldsWanted, hname]
              · simp [fieldsWanted, hname]
      | inr hmem =>
          split
          · exact ih hmem wanted
          · cases hin : fieldsWanted wanted (l.splitOn ':') with
            | none => rfl
            | some b =>
                simp only [Option.bind_eq_bind, Option.bind_some, ih hmem]
                split
                · simp [Option.bind_fun_none]
                · rfl

theorem not_wanted_of_short (h : (line.splitOn ':').length < 3) : ¬ Wanted wanted line := by
  intro hwanted
  obtain ⟨n, -, hmarks⟩ := hwanted
  exact not_marks_of_short h n hmarks

theorem taken_cons (wanted : List Text) (line : Text) (lines : List Text) :
    taken wanted (line :: lines) =
      if Wanted wanted line then line :: taken wanted lines else taken wanted lines := by
  simp only [taken, List.filter_cons, decide_eq_true_eq]

theorem copyUsers_cons (users : List Text) (line : Text) (lines groups : List Text) :
    copyUsers users (line :: lines) groups =
      if Wanted users line then
        (line.splitOn ':')[3]?.bind fun gid =>
          (copyUsers users lines (if gid ∈ groups then groups else groups ++ [gid])).map
            fun r => (line ++ r.1, r.2)
      else copyUsers users lines groups := by
  rw [copyUsers]
  by_cases hshort : (line.splitOn ':').length < 3
  · rw [if_pos hshort, if_neg (not_wanted_of_short hshort)]
  · obtain ⟨name, passwd, number, fields, hsplit⟩ := exists_fields (Nat.le_of_not_lt hshort)
    rw [if_neg hshort, fieldsWanted_eq hsplit]
    by_cases hin : Wanted users line
    · simp only [hin, decide_true, Option.bind_eq_bind, Option.bind_some, if_true]
      congr 1
      funext gid
      cases copyUsers users lines (if gid ∈ groups then groups else groups ++ [gid]) with
      | none => rfl
      | some r => rfl
    · simp [hin]

theorem copyUsers_eq (h : ∀ l ∈ taken users lines, 4 ≤ (l.splitOn ':').length)
    (groups : List Text) :
    copyUsers users lines groups =
      some ((taken users lines).flatten, withGids groups (taken users lines)) := by
  induction lines generalizing groups with
  | nil => rfl
  | cons line lines ih =>
      rw [taken_cons] at h
      rw [copyUsers_cons, taken_cons]
      by_cases hin : Wanted users line
      · rw [if_pos hin] at h
        have hgid : (line.splitOn ':')[3]? = some ((line.splitOn ':')[3]?.getD []) := by
          have hlen := h line List.mem_cons_self
          rw [List.getElem?_eq_getElem (by omega), Option.getD_some]
        have ih := ih fun l hl => h l (List.mem_cons_of_mem line hl)
        rw [if_pos hin, if_pos hin, hgid, Option.bind_some, ih]
        rfl
      · rw [if_neg hin] at h
        rw [if_neg hin, if_neg hin]
        exact ih h groups

theorem copyUsers_three (hline : line ∈ taken users lines)
    (hthree : (line.splitOn ':').length < 4) (groups : List Text) :
    copyUsers users lines groups = none := by
  induction lines generalizing groups with
  | nil => cases hline
  | cons l lines ih =>
      rw [taken_cons] at hline
      rw [copyUsers_cons]
      by_cases hin : Wanted users l
      · rw [if_pos hin] at hline ⊢
        cases List.mem_cons.mp hline with
        | inl heq => rw [← heq, List.getElem?_eq_none (by omega), Option.bind_none]
        | inr hmem => simp [ih hmem]
      · rw [if_neg hin] at hline ⊢
        exact ih hline groups

/-- A line of two fields that the copy of the groups takes. -/
def Bare (groups : List Text) (line : Text) : Prop :=
  (line.splitOn ':').length = 2 ∧ ∃ n ∈ groups, (line.splitOn ':').head? = some n

instance (groups : List Text) (line : Text) : Decidable (Bare groups line) :=
  inferInstanceAs (Decidable (_ ∧ _))

theorem copyGroups_cons (groups : List Text) (line : Text) (lines : List Text) :
    copyGroups groups (line :: lines) =
      if Wanted groups line ∨ Bare groups line then
        (copyGroups groups lines).map fun text => line ++ text
      else if (line.splitOn ':').length = 2 then none else copyGroups groups lines := by
  rw [copyGroups]
  by_cases hlong : 3 ≤ (line.splitOn ':').length
  · obtain ⟨name, passwd, number, fields, hsplit⟩ := exists_fields hlong
    have hbare : ¬ Bare groups line := fun h => absurd h.1 (by omega)
    rw [if_neg (show ¬ (line.splitOn ':').length < 2 by omega), fieldsWanted_eq hsplit]
    by_cases hin : Wanted groups line
    · simp only [hin, true_or, if_true, decide_true, Option.bind_eq_bind, Option.bind_some]
      cases copyGroups groups lines with
      | none => rfl
      | some text => rfl
    · rw [if_neg (not_or.mpr ⟨hin, hbare⟩),
        if_neg (show ¬ (line.splitOn ':').length = 2 by omega)]
      simp [hin]
  · have hwanted : ¬ Wanted groups line := not_wanted_of_short (Nat.lt_of_not_le hlong)
    by_cases htwo : (line.splitOn ':').length = 2
    · match hsplit : line.splitOn ':', htwo with
      | [name, passwd], _ =>
          have hbare : Bare groups line ↔ name ∈ groups := by simp [Bare, hsplit]
          by_cases hname : name ∈ groups
          · rw [if_pos (Or.inr (hbare.mpr hname))]
            simp only [fieldsWanted, hname, List.getElem?_cons_zero, if_true,
              Option.bind_eq_bind, Option.bind_some]
            cases copyGroups groups lines with
            | none => rfl
            | some text => rfl
          · rw [if_neg (not_or.mpr ⟨hwanted, fun h => hname (hbare.mp h)⟩)]
            simp [fieldsWanted, hname]
    · have hbare : ¬ Bare groups line := fun h => htwo h.1
      rw [if_pos (show (line.splitOn ':').length < 2 by omega),
        if_neg (not_or.mpr ⟨hwanted, hbare⟩), if_neg htwo]

theorem copyGroups_some {text : Text} (h : copyGroups groups lines = some text) :
    text = (lines.filter fun l => Wanted groups l ∨ Bare groups l).flatten ∧
      ∀ l ∈ lines, (l.splitOn ':').length = 2 → Bare groups l := by
  induction lines generalizing text with
  | nil =>
      cases h
      exact ⟨rfl, fun l hl => absurd hl List.not_mem_nil⟩
  | cons line lines ih =>
      rw [copyGroups_cons] at h
      split at h
      next hin =>
        obtain ⟨rest, hrest, htext⟩ := Option.map_eq_some_iff.mp h
        obtain ⟨heq, hbare⟩ := ih hrest
        refine ⟨?_, fun l hl htwo => ?_⟩
        · rw [← htext, heq, List.filter_cons, if_pos (decide_eq_true hin), List.flatten_cons]
        · cases List.mem_cons.mp hl with
          | inl h =>
              rw [h] at htwo ⊢
              exact hin.resolve_left (not_wanted_of_short (by omega))
          | inr hl => exact hbare l hl htwo
      next hout =>
        split at h
        · cases h
        next hlen =>
          obtain ⟨heq, hbare⟩ := ih h
          refine ⟨?_, fun l hl htwo => ?_⟩
          · rw [heq, List.filter_cons, if_neg (by simpa using hout)]
          · cases List.mem_cons.mp hl with
            | inl h => exact absurd (h ▸ htwo) hlen
            | inr hl => exact hbare l hl htwo

theorem copyGroups_eq (h : ∀ l ∈ lines, (l.splitOn ':').length ≠ 2) :
    copyGroups groups lines = some (taken groups lines).flatten := by
  induction lines with
  | nil => rfl
  | cons line lines ih =>
      have hline := h line List.mem_cons_self
      have hbare : ¬ Bare groups line := fun h => hline h.1
      rw [copyGroups_cons, taken_cons, ih fun l hl => h l (List.mem_cons_of_mem line hl),
        if_neg hline]
      by_cases hin : Wanted groups line
      · rw [if_pos (Or.inl hin), if_pos hin]
        rfl
      · rw [if_neg (not_or.mpr ⟨hin, hbare⟩), if_neg hin]

end

end Jailkit.JkLib
