import Jailkit.JkLib.Paths
import Jailkit.JkLib.PyString
import Jailkit.Lib.Trees
import Mathlib.Algebra.Order.BigOperators.Group.List
import Mathlib.Algebra.Order.Group.Nat

/-!
The lists of jk_check.ini, and which paths jk_check leaves out because of them.
-/
namespace Jailkit.Check

open JkLib (splitItems)
open Fs (components isAbsolute)

/-- `get_list_option`; the option is `none` where the section does not have it. -/
def getListOption : Option Text → List Text
  | none => []
  | some inputstr => splitItems inputstr

def fileInList (thelist : List Text) (file : Text) : Bool := thelist.any fun tmp => tmp = file

def filebasedirInList (thelist : List Text) (file : Text) : Bool :=
  thelist.any fun ipath => file.take ipath.length = ipath

/-- The names of a path; a slash more makes no difference. -/
def steps (path : Text) : List Text := (components path).filter (· ≠ [])

/-- The path is the entry or lies below it, name by name. -/
def AtOrBelow (entry path : Text) : Prop :=
  isAbsolute entry = isAbsolute path ∧ steps entry <+: steps path

def Listed (thelist : List Text) (path : Text) : Prop :=
  ∃ entry ∈ thelist, entry ≠ [] ∧ AtOrBelow entry path

/-- The part of an entry up to its last slash. -/
def above (entry : Text) : Text := entry.rdropWhile (· ≠ '/')

/-- The entry ends with a slash, or the directory that it is in is listed too. -/
def Bounded (thelist : List Text) (entry : Text) : Prop :=
  entry.getLast? = some '/' ∨ Listed thelist (above entry)

theorem filebasedirInList_iff (thelist : List Text) (file : Text) :
    filebasedirInList thelist file = true ↔ ∃ ipath ∈ thelist, ipath <+: file := by
  rw [filebasedirInList, List.any_eq_true]
  refine exists_congr fun ipath => and_congr_right fun _ => ?_
  rw [decide_eq_true_iff, List.prefix_iff_eq_take, eq_comm]

theorem steps_slash (a b : Text) : steps (a ++ '/' :: b) = steps a ++ steps b := by
  rw [steps, Fs.components_append_slash, List.filter_append]
  rfl

theorem steps_name {n : Text} (h : '/' ∉ n) (hn : n ≠ []) : steps n = [n] := by
  rw [steps, JkLib.components_name h, List.filter_singleton]
  simp [hn]

theorem isAbsolute_slash (a b b' : Text) :
    isAbsolute (a ++ '/' :: b) = isAbsolute (a ++ '/' :: b') := by
  cases a with
  | nil => rfl
  | cons c a => rfl

theorem exists_last_slash {path : Text} (h : '/' ∈ path) :
    ∃ a n, '/' ∉ n ∧ path = a ++ '/' :: n := by
  induction path using List.reverseRecOn with
  | nil => cases h
  | append_singleton path c ih =>
      by_cases hc : c = '/'
      · exact ⟨path, [], List.not_mem_nil, by rw [hc]⟩
      · have hmem : '/' ∈ path := by simpa [Ne.symm hc] using h
        obtain ⟨a, n, hn, heq⟩ := ih hmem
        refine ⟨a, n ++ [c], by simp [hn, Ne.symm hc], ?_⟩
        rw [heq]
        simp

/-- A path is cut at its last slash, if it has one. -/
theorem above_cases (entry : Text) :
    ('/' ∉ entry ∧ above entry = []) ∨
      ∃ a n, '/' ∉ n ∧ entry = a ++ '/' :: n ∧ above entry = a ++ ['/'] := by
  by_cases hslash : '/' ∈ entry
  · obtain ⟨a, n, hn, heq⟩ := exists_last_slash hslash
    exact Or.inr ⟨a, n, hn, heq, by rw [heq, above, JkLib.rdropWhile_slash a hn]⟩
  · refine Or.inl ⟨hslash, ?_⟩
    rw [above, List.rdropWhile_eq_nil_iff]
    intro c hc
    rw [decide_eq_true_iff]
    exact fun heq => hslash (heq ▸ hc)

/-- A path without names is made of slashes. -/
theorem absolute_of_steps {path : Text} (hne : path ≠ []) (h : steps path = []) :
    isAbsolute path = true := by
  cases path with
  | nil => exact absurd rfl hne
  | cons c path =>
      rw [isAbsolute, List.head?_cons, decide_eq_true_iff, Option.some.injEq]
      by_contra hc
      by_cases hslash : '/' ∈ c :: path
      · obtain ⟨n, r, heq, hn⟩ := List.eq_append_cons_of_mem hslash
        have hnil : n ≠ [] := by
          intro hnil
          rw [hnil] at heq
          cases heq
          exact hc rfl
        rw [heq, steps_slash, steps_name hn hnil] at h
        cases h
      · rw [steps_name hslash (List.cons_ne_nil c path)] at h
        cases h

/-- Nothing is above a path that is empty. -/
theorem not_listed_nil (thelist : List Text) : ¬ Listed thelist [] := by
  intro ⟨entry, _, hne, habs, hsteps⟩
  have hnil : steps ([] : Text) = [] := rfl
  rw [hnil, List.prefix_nil] at hsteps
  rw [absolute_of_steps hne hsteps] at habs
  cases habs

/-- Some name is longer than all the names of the list. -/
theorem exists_long_name (names : List Text) :
    ∃ w : Text, '/' ∉ w ∧ w ≠ [] ∧ ∀ n ∈ names, n.length < w.length := by
  refine ⟨List.replicate ((names.map List.length).sum + 1) 'x', ?_, ?_, ?_⟩
  · intro hmem
    cases List.eq_of_mem_replicate hmem
  · intro hnil
    cases hnil
  · intro n hn
    rw [List.length_replicate]
    exact Nat.lt_succ_of_le (List.single_le_sum (by simp) _ (List.mem_map_of_mem hn))

/-- A listed directory covers what has its path, with the slash, as its beginning. -/
theorem listed_above {thelist : List Text} {a rest : Text} (h : Listed thelist (a ++ ['/'])) :
    Listed thelist (a ++ '/' :: rest) := by
  obtain ⟨entry, hmem, hne, habs, hsteps⟩ := h
  refine ⟨entry, hmem, hne, habs.trans (isAbsolute_slash a [] rest), ?_⟩
  rw [steps_slash] at hsteps ⊢
  have hnil : steps ([] : Text) = [] := rfl
  rw [hnil, List.append_nil] at hsteps
  exact hsteps.trans (List.prefix_append _ _)

/-- Behind an entry a name can go on that is none of the list's. -/
theorem bounded_of_exempts {thelist : List Text} {entry : Text}
    (hall : ∀ file, entry <+: file → Listed thelist file) : Bounded thelist entry := by
  obtain ⟨w, hw, hwne, hlong⟩ := exists_long_name (thelist.flatMap steps)
  have hnot : ∀ e ∈ thelist, ∀ n, n ++ w ∉ steps e := by
    intro e he n hn
    have hlt := hlong (n ++ w) (List.mem_flatMap.mpr ⟨e, he, hn⟩)
    rw [List.length_append] at hlt
    omega
  obtain ⟨e, he, hne, habs, hsteps⟩ := hall (entry ++ w) (List.prefix_append entry w)
  cases above_cases entry with
  | inl hcase =>
      have hfile : '/' ∉ entry ++ w := by simp [hcase.1, hw]
      rw [steps_name hfile (by simp [hwne]), ← List.nil_append [entry ++ w],
        List.prefix_concat_iff] at hsteps
      cases hsteps with
      | inl heq =>
          refine absurd ?_ (hnot e he entry)
          rw [heq]
          exact List.mem_append_right _ List.mem_cons_self
      | inr hnil =>
          rw [absolute_of_steps hne (List.prefix_nil.mp hnil)] at habs
          exact absurd (List.mem_of_head? (of_decide_eq_true habs.symm)) hfile
  | inr hcase =>
      obtain ⟨a, n, hn, heq, habove⟩ := hcase
      by_cases hnil : n = []
      · refine Or.inl ?_
        rw [heq, hnil, List.getLast?_concat]
      · have hfile : entry ++ w = a ++ '/' :: (n ++ w) := by rw [heq]; simp
        have hname : '/' ∉ n ++ w := by simp [hn, hw]
        rw [hfile, steps_slash, steps_name hname (by simp [hnil]),
          List.prefix_concat_iff] at hsteps
        rw [hfile] at habs
        refine Or.inr ⟨e, he, hne, ?_⟩
        rw [habove]
        refine ⟨habs.trans (isAbsolute_slash a _ []), ?_⟩
        rw [steps_slash]
        cases hsteps with
        | inl hsame =>
            refine absurd ?_ (hnot e he n)
            rw [hsame]
            exact List.mem_append_right _ List.mem_cons_self
        | inr hpre => exact hpre.trans (List.prefix_append _ _)

theorem listed_of_bounded {thelist : List Text} {entry file : Text} (hmem : entry ∈ thelist)
    (hbounded : Bounded thelist entry) (hpre : entry <+: file) : Listed thelist file := by
  obtain ⟨rest, hrest⟩ := hpre
  cases above_cases entry with
  | inl hcase =>
      cases hbounded with
      | inl hlast => exact absurd (List.mem_of_getLast? hlast) hcase.1
      | inr hlisted =>
          rw [hcase.2] at hlisted
          exact absurd hlisted (not_listed_nil thelist)
  | inr hcase =>
      obtain ⟨a, n, hn, heq, habove⟩ := hcase
      have hfile : file = a ++ '/' :: (n ++ rest) := by rw [← hrest, heq]; simp
      rw [hfile]
      apply listed_above
      cases hbounded with
      | inr hlisted => rwa [habove] at hlisted
      | inl hlast =>
          have hnil : n = [] := by
            by_contra hnil
            rw [heq, List.append_cons, List.getLast?_append_of_ne_nil _ hnil] at hlast
            exact hn (List.mem_of_getLast? hlast)
          rw [hnil] at heq
          exact ⟨entry, hmem, by simp [heq], by rw [heq]; exact ⟨rfl, List.prefix_refl _⟩⟩

/-- The comparison of strings leaves out listed paths only, if each entry is bounded, and only
then. -/
theorem exempts_listed_iff (thelist : List Text) :
    (∀ file, filebasedirInList thelist file = true → Listed thelist file) ↔
      ∀ entry ∈ thelist, Bounded thelist entry := by
  simp only [filebasedirInList_iff]
  constructor
  · intro hall entry hmem
    exact bounded_of_exempts fun file hpre => hall file ⟨entry, hmem, hpre⟩
  · intro hall file ⟨entry, hmem, hpre⟩
    exact listed_of_bounded hmem (hall entry hmem) hpre

end Jailkit.Check
