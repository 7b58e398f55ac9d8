import Jailkit.JkLib.Paths

/-!
`split_path`: for which strings its loop comes to the root, and what `join_path` makes of the
names.
-/
namespace Jailkit.JkLib

open Fs (ValidName isAbsolute)

/-- After some rounds the loop is at the root, and these are the names it has met. -/
def SplitsInto (path : Text) (spath : List Text) : Prop :=
  ∃ rounds, splitLoop rounds (fixDoubleSlashes (normpath path)) [] = some spath

/-- The loop ends, and the names of an absolute path are names and join to the path again. -/
structure SplitsRight (path : Text) : Prop where
  ends : ∃ spath, SplitsInto path spath
  joined : path.head? = some '/' → ∀ spath, SplitsInto path spath →
    joinPath spath = fixDoubleSlashes (normpath path)
  named : path.head? = some '/' → ∀ spath, SplitsInto path spath →
    ∀ entry ∈ spath, entry ≠ [] ∧ '/' ∉ entry

section

variable {path : Text} {spath : List Text}

theorem splitLoop_mono {n m : Nat} (h : n ≤ m) {next : Text} {ret : List Text}
    (hn : splitLoop n next ret = some spath) : splitLoop m next ret = some spath := by
  induction n generalizing m next ret with
  | zero => cases hn
  | succ n ih =>
      cases m with
      | zero => omega
      | succ m =>
          rw [splitLoop] at hn ⊢
          split
          next hroot => rwa [if_pos hroot] at hn
          next hroot =>
            rw [if_neg hroot] at hn
            exact ih (Nat.le_of_succ_le_succ h) hn

/-- However many rounds are looked at, the names are the same. -/
theorem splitLoop_unique {n m : Nat} {next : Text} {ret spath' : List Text}
    (hn : splitLoop n next ret = some spath) (hm : splitLoop m next ret = some spath') :
    spath = spath' := by
  cases Nat.le_total n m with
  | inl hle => exact Option.some.inj ((splitLoop_mono hle hn).symm.trans hm)
  | inr hle => exact Option.some.inj (hn.symm.trans (splitLoop_mono hle hm))

/-- `splitPath` gives `none` just where the loop goes on for ever. -/
theorem splitPath_eq_some_iff_splitsInto : splitPath path = some spath ↔ SplitsInto path spath := by
  constructor
  · exact fun h => ⟨_, h⟩
  · intro ⟨rounds, hrounds⟩
    cases habs : isAbsolute path with
    | true =>
        have hall := splitPath_absolute habs
        rw [hall, Option.some.injEq]
        exact splitLoop_unique hall hrounds
    | false =>
        have hhead : (fixDoubleSlashes (normpath path)).head? ≠ some '/' := by
          rw [fixDoubleSlashes_head]
          exact normpath_relative habs
        rw [splitLoop_relative rounds hhead] at hrounds
        cases hrounds

theorem splitsInto_iff : SplitsInto path spath ↔ isAbsolute path = true ∧ spath = names path :=
  splitPath_eq_some_iff_splitsInto.symm.trans splitPath_eq_some

theorem not_splitsInto_relative (h : isAbsolute path = false) : ¬ SplitsInto path spath := by
  simp [splitsInto_iff, h]

end

/-- The loop ends for the absolute paths and for no other string. -/
theorem splitPath_right_iff (path : Text) : SplitsRight path ↔ path.head? = some '/' := by
  constructor
  · intro h
    obtain ⟨spath, hinto⟩ := h.ends
    exact of_decide_eq_true (splitsInto_iff.mp hinto).1
  · intro hhead
    have habs : isAbsolute path = true := decide_eq_true hhead
    refine ⟨⟨names path, splitsInto_iff.mpr ⟨habs, rfl⟩⟩, fun _ spath hinto => ?_,
      fun _ spath hinto entry hentry => ?_⟩
    · rw [(splitsInto_iff.mp hinto).2, fixDoubleSlashes_normpath habs]
    · rw [(splitsInto_iff.mp hinto).2] at hentry
      have hvalid := names_valid path entry hentry
      exact ⟨hvalid.1, hvalid.2.2.2⟩

/-- An empty item of a list of directories, the name of a device without the slash, and what
`create_parent_path` passes on for a symlink `lib` to `usr/lib` in the jail `/jail/`. -/
theorem splitPath_goes_on :
    ¬ SplitsRight [] ∧ ¬ SplitsRight "dev/null".toList ∧
      ¬ SplitsRight ((normpath (osPathJoin (dirname "/jail/lib".toList) "usr/lib".toList)).drop
        "/jail/".toList.length) := by
  refine ⟨fun h => ?_, fun h => ?_, fun h => ?_⟩
  · obtain ⟨spath, hinto⟩ := h.ends
    exact not_splitsInto_relative (by decide) hinto
  · obtain ⟨spath, hinto⟩ := h.ends
    exact not_splitsInto_relative (by decide) hinto
  · obtain ⟨spath, hinto⟩ := h.ends
    exact not_splitsInto_relative (by decide) hinto

end Jailkit.JkLib
