import Jailkit.Wrapper.Chrootsh

/-!
The cleaning of the environment. An entry without a name is not kept, and `unsetenv`
does not remove it: the walk goes back to the beginning for ever.
-/
namespace Jailkit.Wrapper

open Prog

/-- The text before the first `=`. -/
def nameOf (entry : Text) : Text := entry.takeWhile (· ≠ '=')

/-- `unsetenv` removes every entry with that name; it fails on an empty one. -/
def unsetenv (name : Text) (environ : List Text) : List Text :=
  if name = [] ∨ '=' ∈ name then environ
  else environ.filter fun entry => !(name ++ ['=']).isPrefixOf entry

/-- The calls that look at the environment block and change it. -/
def libc : Machine Call Res (List Text) := fun environ c r environ' =>
  match c, r with
  | .environ, block => block = environ ∧ environ' = environ
  | .unsetenv name, _ => environ' = unsetenv name environ
  | .clearenv, _ => environ' = []
  | _, _ => False

/-- Each of these is answered in every state. -/
def Answered : Call → Prop
  | .environ | .unsetenv _ | .clearenv => True
  | _ => False

/-- The program ends, and the environment is then this one. -/
def Leaves (p : Cmd Unit) (environ cleaned : List Text) : Prop :=
  p.Always libc (fun _ c => Answered c) (fun _ environ' => environ' = cleaned) environ

/-- What is to be left of the environment: nothing where it is malformed or nothing is
allowed. -/
def cleanedEnviron (except environ : List Text) : List Text :=
  if except = [] ∨ ∃ entry ∈ environ, '=' ∉ entry then []
  else environ.filter fun entry => nameOf entry ∈ except

/-- With enough fuel the cleaning ends, and leaves what it should. -/
def CleansEnviron (except : Option (List Text)) (environ : List Text) : Prop :=
  ∃ n, ∀ fuel, n ≤ fuel → Leaves (unsetEnvironExcept except fuel) environ
    (cleanedEnviron (except.getD []) environ)

/-- There is an entry that begins with `=`, and none without `=` in front of it. -/
def NamelessFirst : List Text → Prop
  | [] => False
  | entry :: environ => entry.head? = some '=' ∨ '=' ∈ entry ∧ NamelessFirst environ

section

variable {except environ cleaned : List Text} {entry name : Text} {i fuel : Nat}

theorem leaves_environ (f : List Text → Cmd Unit) :
    Leaves (do f (← perform .environ)) environ cleaned ↔ Leaves (f environ) environ cleaned := by
  constructor
  · intro h
    exact h.2 environ environ ⟨rfl, rfl⟩
  · intro h
    refine ⟨trivial, fun block environ' hM => ?_⟩
    obtain ⟨hblock, henviron⟩ := hM
    subst hblock henviron
    exact h

theorem leaves_unsetenv (p : Cmd Unit) :
    Leaves (do perform (.unsetenv name); p) environ cleaned ↔
      Leaves p (unsetenv name environ) cleaned := by
  constructor
  · intro h
    exact h.2 () _ rfl
  · intro h
    refine ⟨trivial, fun _ environ' hM => ?_⟩
    have henviron : environ' = unsetenv name environ := hM
    subst henviron
    exact h

theorem leaves_clearenv : Leaves (perform .clearenv) environ cleaned ↔ cleaned = [] := by
  constructor
  · intro h
    have hempty : [] = cleaned := h.2 () [] rfl
    exact hempty.symm
  · intro h
    refine ⟨trivial, fun _ environ' hM => ?_⟩
    exact Eq.trans (show environ' = [] from hM) h.symm

theorem not_leaves_hang : ¬ Leaves hang environ cleaned := fun h => h.1

theorem leaves_pure : Leaves (pure ()) environ cleaned ↔ environ = cleaned := Iff.rfl

/-- One step of the walk. -/
theorem leaves_unsetEnvironLoop :
    Leaves (unsetEnvironLoop except i (fuel + 1)) environ cleaned ↔
      match environ[i]? with
      | none => environ = cleaned
      | some entry =>
          if '=' ∉ entry then cleaned = []
          else if nameOf entry ∈ except then
            Leaves (unsetEnvironLoop except (i + 1) fuel) environ cleaned
          else Leaves (unsetEnvironLoop except 0 fuel) (unsetenv (nameOf entry) environ)
            cleaned := by
  rw [unsetEnvironLoop, leaves_environ]
  cases environ[i]? with
  | none => exact leaves_pure
  | some entry =>
      by_cases heq : '=' ∉ entry
      · simp only [if_pos heq]
        exact leaves_clearenv
      · simp only [if_neg heq, inArray, List.contains_iff_mem]
        by_cases hkept : nameOf entry ∈ except
        · simp only [if_pos hkept, if_pos (show entry.takeWhile (· ≠ '=') ∈ except from hkept)]
        · simp only [if_neg hkept, if_neg (show entry.takeWhile (· ≠ '=') ∉ except from hkept)]
          exact leaves_unsetenv _

theorem not_mem_nameOf : '=' ∉ nameOf entry := by
  intro h
  simpa using List.mem_takeWhile_imp h

theorem nameOf_eq_of_starts (hname : '=' ∉ name) (h : name ++ ['='] <+: entry) :
    nameOf entry = name := by
  obtain ⟨t, ht⟩ := h
  have hall : ∀ c ∈ name, decide (c ≠ '=') = true := by
    intro c hc
    exact decide_eq_true fun h => hname (h ▸ hc)
  rw [nameOf, ← ht, List.append_assoc, List.singleton_append, List.takeWhile_append_of_pos hall]
  simp

theorem nameOf_starts (h : '=' ∈ entry) : nameOf entry ++ ['='] <+: entry := by
  obtain ⟨name, rest, heq, hname⟩ := List.eq_append_cons_of_mem h
  have hstart : name ++ ['='] <+: entry := ⟨rest, by rw [heq, List.append_assoc]; rfl⟩
  rwa [nameOf_eq_of_starts hname hstart]

theorem mem_unsetenv : entry ∈ unsetenv name environ → entry ∈ environ := by
  rw [unsetenv]
  split
  · exact id
  · exact fun h => (List.mem_filter.mp h).1

/-- Entries with another name stay, and those without `=`. -/
theorem mem_unsetenv_of_ne (h : entry ∈ environ) (hname : '=' ∈ entry → nameOf entry ≠ name) :
    entry ∈ unsetenv name environ := by
  rw [unsetenv]
  split
  · exact h
  next hvalid =>
    refine List.mem_filter.mpr ⟨h, ?_⟩
    rw [Bool.not_eq_true', ← Bool.not_eq_true, List.isPrefixOf_iff_prefix]
    intro hstart
    have heq : '=' ∈ entry := by
      refine hstart.subset ?_
      simp
    exact hname heq (nameOf_eq_of_starts (fun hmem => hvalid (Or.inr hmem)) hstart)

theorem length_unsetenv (h : entry ∈ environ) (heq : '=' ∈ entry) (hname : nameOf entry ≠ []) :
    (unsetenv (nameOf entry) environ).length < environ.length := by
  rw [unsetenv, if_neg (by simp [hname, not_mem_nameOf])]
  refine List.length_filter_lt_length_iff_exists.mpr ⟨entry, h, ?_⟩
  rw [Bool.not_eq_true', ← Bool.not_eq_true, not_not, List.isPrefixOf_iff_prefix]
  exact nameOf_starts heq

/-- To remove what is not allowed changes nothing in what is to be left. -/
theorem cleanedEnviron_unsetenv (hname : name ∉ except) :
    cleanedEnviron except (unsetenv name environ) = cleanedEnviron except environ := by
  have hmalformed : (∃ entry ∈ unsetenv name environ, '=' ∉ entry) ↔
      ∃ entry ∈ environ, '=' ∉ entry := by
    constructor
    · intro ⟨entry, hmem, heq⟩
      exact ⟨entry, mem_unsetenv hmem, heq⟩
    · intro ⟨entry, hmem, heq⟩
      exact ⟨entry, mem_unsetenv_of_ne hmem fun h => absurd h heq, heq⟩
  simp only [cleanedEnviron, hmalformed]
  split
  · rfl
  · rw [unsetenv]
    split
    · rfl
    next hvalid =>
      rw [List.filter_filter]
      apply List.filter_congr
      intro entry _
      by_cases hstart : (name ++ ['=']).isPrefixOf entry = true
      · have hsame : nameOf entry = name :=
          nameOf_eq_of_starts (fun hmem => hvalid (Or.inr hmem))
            (List.isPrefixOf_iff_prefix.mp hstart)
        simp [hsame, hname]
      · simp [hstart]

theorem nameOf_eq_nil (h : '=' ∈ entry) : nameOf entry = [] ↔ entry.head? = some '=' := by
  cases entry with
  | nil => cases h
  | cons c entry =>
      by_cases hc : c = '='
      · simp [nameOf, hc]
      · simp [nameOf, hc]

theorem namelessFirst_unsetenv (hname : name ≠ []) :
    NamelessFirst (unsetenv name environ) ↔ NamelessFirst environ := by
  rw [unsetenv]
  split
  · exact Iff.rfl
  next hvalid =>
    induction environ with
    | nil => exact Iff.rfl
    | cons entry environ ih =>
        by_cases hstart : (name ++ ['=']).isPrefixOf entry = true
        · have hin : name ++ ['='] <+: entry := List.isPrefixOf_iff_prefix.mp hstart
          have heq : '=' ∈ entry := hin.subset (by simp)
          have hhead : entry.head? ≠ some '=' := by
            rw [ne_eq, ← nameOf_eq_nil heq,
              nameOf_eq_of_starts (fun hmem => hvalid (Or.inr hmem)) hin]
            exact hname
          simp [hstart, ih, NamelessFirst, heq, hhead]
        · simp [hstart, ih, NamelessFirst]

/-- Entries that are kept have a name. -/
theorem namelessFirst_drop (hnil : [] ∉ except)
    (hkept : ∀ entry ∈ environ.take i, '=' ∈ entry ∧ nameOf entry ∈ except) :
    NamelessFirst (environ.drop i) ↔ NamelessFirst environ := by
  induction i generalizing environ with
  | zero => exact Iff.rfl
  | succ i ih =>
      cases environ with
      | nil => exact Iff.rfl
      | cons entry environ =>
          rw [List.take_succ_cons, List.forall_mem_cons] at hkept
          obtain ⟨⟨heq, hname⟩, hrest⟩ := hkept
          have hhead : entry.head? ≠ some '=' := by
            intro hhead
            rw [(nameOf_eq_nil heq).mpr hhead] at hname
            exact hnil hname
          rw [List.drop_succ_cons, ih hrest]
          simp [NamelessFirst, heq, hhead]

theorem forall_take_succ {P : Text → Prop} (hkept : ∀ entry ∈ environ.take i, P entry)
    (hentry : environ[i]? = some entry) (h : P entry) : ∀ entry ∈ environ.take (i + 1), P entry := by
  rw [List.take_add_one, hentry]
  exact List.forall_mem_append.mpr ⟨hkept, List.forall_mem_singleton.mpr h⟩

def enoughSteps (environ : List Text) (i : Nat) : Nat :=
  (environ.length + 1) * (environ.length + 1) - i

theorem enoughSteps_shorter {environ' : List Text} (hshort : environ'.length < environ.length)
    (hi : i ≤ environ.length) : enoughSteps environ' 0 < enoughSteps environ i := by
  have hsquare : (environ'.length + 1) * (environ'.length + 1) ≤ environ.length * environ.length :=
    Nat.mul_le_mul hshort hshort
  have hnext : (environ.length + 1) * (environ.length + 1) =
      environ.length * environ.length + 2 * environ.length + 1 := by
    simp only [Nat.add_mul, Nat.mul_add]
    omega
  simp only [enoughSteps]
  omega

/-- Each round of the walk passes an entry, or goes back to a shorter block. -/
theorem unsetEnvironLoop_leaves (hexcept : except ≠ []) (hnil : [] ∉ except) (hi : i ≤ environ.length)
    (hkept : ∀ entry ∈ environ.take i, '=' ∈ entry ∧ nameOf entry ∈ except)
    (hnamed : ¬ NamelessFirst environ) (hfuel : enoughSteps environ i ≤ fuel) :
    Leaves (unsetEnvironLoop except i fuel) environ (cleanedEnviron except environ) := by
  induction fuel generalizing environ i with
  | zero =>
      have hpos : environ.length + 1 ≤ (environ.length + 1) * (environ.length + 1) :=
        Nat.le_mul_self _
      simp only [enoughSteps] at hfuel
      omega
  | succ fuel ih =>
      rw [leaves_unsetEnvironLoop]
      cases hentry : environ[i]? with
      | none =>
          have hall : environ.take i = environ :=
            List.take_of_length_le (List.getElem?_eq_none_iff.mp hentry)
          rw [hall] at hkept
          have hnone : ¬ (except = [] ∨ ∃ entry ∈ environ, '=' ∉ entry) := by
            intro h
            obtain ⟨entry, hmem, heq⟩ := h.resolve_left hexcept
            exact heq (hkept entry hmem).1
          rw [cleanedEnviron, if_neg hnone]
          refine (List.filter_eq_self.mpr ?_).symm
          exact fun entry hmem => decide_eq_true (hkept entry hmem).2
      | some entry =>
          obtain ⟨hlt, hget⟩ := List.getElem?_eq_some_iff.mp hentry
          have hmem : entry ∈ environ := List.mem_of_getElem? hentry
          by_cases heq : '=' ∈ entry
          · simp only [not_not.mpr heq, if_false]
            by_cases hin : nameOf entry ∈ except
            · rw [if_pos hin]
              refine ih hlt (forall_take_succ hkept hentry ⟨heq, hin⟩) hnamed ?_
              simp only [enoughSteps] at hfuel ⊢
              omega
            · rw [if_neg hin, ← cleanedEnviron_unsetenv hin]
              have hname : nameOf entry ≠ [] := by
                intro hempty
                rw [← namelessFirst_drop hnil hkept, List.drop_eq_getElem_cons hlt, hget] at hnamed
                exact hnamed (Or.inl ((nameOf_eq_nil heq).mp hempty))
              have hfewer := enoughSteps_shorter (length_unsetenv hmem heq hname) hi
              refine ih (Nat.zero_le _) (by simp) ?_ (by omega)
              rwa [namelessFirst_unsetenv hname]
          · have hmalformed : except = [] ∨ ∃ entry ∈ environ, '=' ∉ entry :=
              Or.inr ⟨entry, hmem, heq⟩
            simp only [heq, not_false_eq_true, if_true]
            exact if_pos hmalformed

/-- The entry without a name is never passed and never removed. -/
theorem unsetEnvironLoop_not_leaves (hnil : [] ∉ except)
    (hkept : ∀ entry ∈ environ.take i, '=' ∈ entry ∧ nameOf entry ∈ except)
    (hnameless : NamelessFirst environ) :
    ¬ Leaves (unsetEnvironLoop except i fuel) environ cleaned := by
  induction fuel generalizing environ i with
  | zero => exact not_leaves_hang
  | succ fuel ih =>
      have hrest : NamelessFirst (environ.drop i) := (namelessFirst_drop hnil hkept).mpr hnameless
      rw [leaves_unsetEnvironLoop]
      cases hentry : environ[i]? with
      | none =>
          rw [List.drop_eq_nil_of_le (List.getElem?_eq_none_iff.mp hentry)] at hrest
          exact hrest.elim
      | some entry =>
          obtain ⟨hlt, hget⟩ := List.getElem?_eq_some_iff.mp hentry
          rw [List.drop_eq_getElem_cons hlt, hget] at hrest
          have heq : '=' ∈ entry := by
            rcases hrest with hhead | hrest
            · exact List.mem_of_mem_head? hhead
            · exact hrest.1
          simp only [not_not.mpr heq, if_false]
          by_cases hin : nameOf entry ∈ except
          · rw [if_pos hin]
            exact ih (forall_take_succ hkept hentry ⟨heq, hin⟩) hnameless
          · rw [if_neg hin]
            refine ih (by simp) ?_
            by_cases hname : nameOf entry = []
            · rwa [unsetenv, if_pos (Or.inl hname)]
            · rwa [namelessFirst_unsetenv hname]

end

theorem leaves_unsetEnvironExcept (except : Option (List Text)) (environ cleaned : List Text)
    (fuel : Nat) :
    Leaves (unsetEnvironExcept except fuel) environ cleaned ↔
      if environ = [] ∨ except.getD [] = [] then cleaned = []
      else Leaves (unsetEnvironLoop (except.getD []) 0 fuel) environ cleaned := by
  rw [unsetEnvironExcept, leaves_environ]
  split
  · exact leaves_clearenv
  · exact Iff.rfl

theorem nil_not_mem_explodeString (string : Text) (delimiter : Char) :
    [] ∉ explodeString string delimiter := by
  intro h
  simpa using (List.mem_filter.mp h).2

/-- The environment is cleaned as it should be unless the walk comes to an entry that begins
with `=`: it then goes on for ever. -/
theorem unsetEnvironExcept_cleans_iff (string : Option Text) (delimiter : Char)
    (environ : List Text) :
    CleansEnviron (string.map (explodeString · delimiter)) environ ↔
      (string.map (explodeString · delimiter)).getD [] = [] ∨ ¬ NamelessFirst environ := by
  have hnil : [] ∉ (string.map (explodeString · delimiter)).getD [] := by
    cases string with
    | none => exact List.not_mem_nil
    | some string => exact nil_not_mem_explodeString string delimiter
  generalize string.map (explodeString · delimiter) = except at hnil
  by_cases hexcept : except.getD [] = []
  · refine iff_of_true ⟨0, fun fuel _ => ?_⟩ (Or.inl hexcept)
    rw [leaves_unsetEnvironExcept, if_pos (Or.inr hexcept), cleanedEnviron, if_pos (Or.inl hexcept)]
  · rw [or_iff_right hexcept]
    by_cases hempty : environ = []
    · subst hempty
      refine iff_of_true ⟨0, fun fuel _ => ?_⟩ id
      rw [leaves_unsetEnvironExcept, if_pos (Or.inl rfl), cleanedEnviron, List.filter_nil, ite_self]
    · have hwalk : ¬ (environ = [] ∨ except.getD [] = []) := by simp [hempty, hexcept]
      constructor
      · intro ⟨n, h⟩ hnameless
        have hleaves := h n (Nat.le_refl n)
        rw [leaves_unsetEnvironExcept, if_neg hwalk] at hleaves
        exact unsetEnvironLoop_not_leaves hnil (by simp) hnameless hleaves
      · intro hnamed
        refine ⟨enoughSteps environ 0, fun fuel hfuel => ?_⟩
        rw [leaves_unsetEnvironExcept, if_neg hwalk]
        exact unsetEnvironLoop_leaves hexcept hnil (Nat.zero_le _) (by simp) hnamed hfuel

/-- The one entry has no name: no number of steps is enough. -/
theorem unsetEnvironExcept_hangs :
    ¬ CleansEnviron (some (explodeString "TERM".toList ',')) ["=x".toList] := by
  intro ⟨n, h⟩
  have hleaves := h n (Nat.le_refl n)
  have hwalk : ¬ (["=x".toList] = [] ∨ (some (explodeString "TERM".toList ',')).getD [] = []) := by
    decide
  have hnameless : NamelessFirst ["=x".toList] := Or.inl (by decide)
  rw [leaves_unsetEnvironExcept, if_neg hwalk] at hleaves
  exact unsetEnvironLoop_not_leaves (nil_not_mem_explodeString _ _) (by simp) hnameless hleaves

end Jailkit.Wrapper
