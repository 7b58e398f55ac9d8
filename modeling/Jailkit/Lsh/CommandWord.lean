import Jailkit.JkLib.Explode
import Jailkit.Lsh.Options

/-!
Where jk_lsh finds no word in the command: `explode_string` gives an empty array, and
`expand_newargv` does not look at what `wordexp` returns.
-/
namespace Jailkit.Lsh

open Prog Wrapper

/-- `wordexp` answers as this function says; where it fails it leaves `we_wordv` as it was. -/
def wordexpAs (words : Text → Option (List Text)) : Machine Call Res Unit
  | _, .wordexp s, r, _ => r = words s
  | _, _, _, _ => True

def CommandWordThere (memory : Memory) (file user group command : Text)
    (words : Text → Option (List Text)) : Prop :=
  ¬ Reaches (wordexpAs words) (lshRun memory file user group command) () .crash ()

def HasCommandWord (memory : Memory) (file user group command : Text)
    (words : Text → Option (List Text)) : Prop :=
  ∀ sec body, Ini.selectSection memory file user group = some (sec, body) →
    if Ini.intOption memory file sec (Ini.sectionPosition file body sec)
        "allow_word_expansion" ≠ 0 then
      ∃ word more, words command = some (word :: more)
    else
      ∃ c ∈ command, c ≠ ' '

section

variable {memory : Memory} {file user group command : Text} {sec : CString} {position : Int}
  {words : Text → Option (List Text)} {newargv : Option (List Text)}

theorem stripString_eq_nil {t : Text} : stripString t = [] ↔ t = [] := by
  constructor
  · intro h
    by_contra hne
    have hrev : (keepOne t).reverse ≠ [] := by
      rw [ne_eq, List.reverse_eq_nil_iff]
      exact keepOne_ne_nil hne
    exact keepOne_ne_nil hrev (List.reverse_eq_nil_iff.mp h)
  · intro h
    rw [h]
    rfl

theorem mem_of_intercalate {sep c : Char} {pieces : List Text}
    (h : c ∈ List.intercalate [sep] pieces) : c = sep ∨ ∃ piece ∈ pieces, c ∈ piece := by
  induction pieces with
  | nil => cases h
  | cons piece pieces ih =>
      cases pieces with
      | nil => exact .inr ⟨piece, List.mem_singleton_self _, by simpa using h⟩
      | cons next pieces =>
          rw [List.intercalate_cons_cons, List.append_assoc, List.mem_append, List.mem_append,
            List.mem_singleton] at h
          obtain hpiece | hsep | hlater := h
          · exact .inr ⟨piece, List.mem_cons_self, hpiece⟩
          · exact .inl hsep
          · refine (ih hlater).imp_right fun hmem => ?_
            obtain ⟨piece', hmem, hc⟩ := hmem
            exact ⟨piece', List.mem_cons_of_mem _ hmem, hc⟩

/-- There is a word exactly if not all is delimiters. -/
theorem explodeString_ne_nil {delimiter : Char} :
    explodeString command delimiter ≠ [] ↔ ∃ c ∈ command, c ≠ delimiter := by
  have hitems : explodeString command delimiter ≠ [] ↔
      ∃ piece ∈ command.splitOn delimiter, piece ≠ [] := by
    simp [explodeString, stripString_eq_nil]
  rw [hitems]
  constructor
  · intro h
    obtain ⟨piece, hpiece, hne⟩ := h
    obtain ⟨c, hc⟩ := List.exists_mem_of_ne_nil _ hne
    have hsplit := mem_splitOn hpiece
    exact ⟨c, hsplit.2 c hc, fun heq => hsplit.1 (heq ▸ hc)⟩
  · intro h
    obtain ⟨c, hc, hne⟩ := h
    have hjoin : List.intercalate [delimiter] (command.splitOn delimiter) = command :=
      List.intercalate_splitOn delimiter
    rw [← hjoin] at hc
    obtain ⟨piece, hpiece, hmem⟩ := (mem_of_intercalate hc).resolve_left hne
    exact ⟨piece, hpiece, List.ne_nil_of_mem hmem⟩

theorem splitCommand_returns :
    Returns (wordexpAs words) (splitCommand memory file sec position command) () newargv () ↔
      newargv = if Ini.intOption memory file sec position "allow_word_expansion" ≠ 0 then
        words command else some (explodeString command ' ') := by
  rw [splitCommand]
  split
  next => exact returns_perform
  next => rw [returns_pure, and_iff_left rfl]

/-- A word is looked for behind the array without a check that there is one. -/
theorem resolve_reaches_crash :
    Reaches (wordexpAs words) (resolve memory file sec position newargv) () .crash () ↔
      ¬ ∃ word more, newargv = some (word :: more) := by
  unfold resolve
  split
  next word more =>
    refine iff_of_false ?_ (not_not_intro ⟨word, more, rfl⟩)
    have honly := expandExecutable_only (P := (· ≠ .crash)) nofun word
    exact not_reaches_of_only (only_bind (honly _) fun _ => trivial) (not_not_intro rfl)
  next hnone =>
    refine iff_of_true .here fun hword => ?_
    obtain ⟨word, more, hnewargv⟩ := hword
    exact hnone word more hnewargv

theorem prepare_reaches_crash :
    Reaches (wordexpAs words) (prepare memory file sec position command) () .crash () ↔
      ¬ ∃ word more, (if Ini.intOption memory file sec position "allow_word_expansion" ≠ 0 then
        words command else some (explodeString command ' ')) = some (word :: more) := by
  have hnot : ¬ (Call.crash ≠ .crash) := not_not_intro rfl
  rw [← @resolve_reaches_crash memory file sec position words]
  constructor
  · intro h
    obtain ⟨_, _, -, h⟩ := reaches_past (setUmask_only (P := (· ≠ .crash)) nofun) hnot h
    obtain ⟨_, _, -, h⟩ := reaches_past (setEnvironment_only (P := (· ≠ .crash)) nofun _) hnot h
    obtain ⟨newargv, _, hargv, h⟩ := reaches_past (splitCommand_only (P := (· ≠ .crash)) nofun) hnot h
    rw [splitCommand_returns.mp hargv] at h
    exact h
  · intro h
    refine reaches_bind_right (setUmask_returns (fun _ _ => trivial) _ _ _ _) ?_
    refine reaches_bind_right (setEnvironment_returns (fun _ _ _ => trivial) _) ?_
    exact reaches_bind_right (splitCommand_returns.mpr rfl) h

theorem runAllowed_not_crash {newargv : List Text} :
    ¬ Reaches (wordexpAs words) (runAllowed memory file sec position newargv) () .crash () := by
  refine not_reaches_of_only (P := (· ≠ .crash)) ?_ (not_not_intro rfl)
  apply only_bind (executableIsAllowed_only nofun _ _ _ _ _)
  intro b
  split
  · exact only_call nofun
  · exact only_exit nofun

theorem explodeString_word : (∃ word more, some (explodeString command ' ') =
    some (word :: more)) ↔ ∃ c ∈ command, c ≠ ' ' := by
  rw [← explodeString_ne_nil, List.ne_nil_iff_exists_cons]
  simp only [Option.some.injEq]

end

/-- The word is there exactly if the command has one. -/
theorem lshRun_commandWord_iff (memory : Memory) (file user group command : Text)
    (words : Text → Option (List Text)) :
    CommandWordThere memory file user group command words ↔
      HasCommandWord memory file user group command words := by
  rw [CommandWordThere, HasCommandWord]
  cases hselect : Ini.selectSection memory file user group with
  | none =>
      refine iff_of_true (fun h => ?_) nofun
      rw [lshRun, hselect] at h
      cases h with
      | later hM _ =>
          next r _ => exact r.elim
  | some selected =>
      obtain ⟨sec, body⟩ := selected
      have hcrash : Reaches (wordexpAs words) (lshRun memory file user group command) ()
          .crash () ↔ Reaches (wordexpAs words)
            (prepare memory file sec (Ini.sectionPosition file body sec) command) () .crash () := by
        rw [lshRun_section hselect]
        constructor
        · intro h
          refine (reaches_bind_cases h).resolve_right fun hrest => ?_
          obtain ⟨_, _, -, hrest⟩ := hrest
          exact runAllowed_not_crash hrest
        · exact reaches_bind_left
      rw [hcrash, prepare_reaches_crash, not_not]
      constructor
      · intro h sec' body' heq
        cases heq
        split
        next hexpand =>
          rw [if_pos hexpand] at h
          exact h
        next hexpand =>
          rw [if_neg hexpand, explodeString_word] at h
          exact h
      · intro h
        have hword := h sec body rfl
        split at hword
        next hexpand =>
          rw [if_pos hexpand]
          exact hword
        next hexpand =>
          rw [if_neg hexpand, explodeString_word]
          exact hword

/-- The command is two blanks, and words are not expanded. -/
theorem lshRun_without_word : ¬ CommandWordThere (fun _ _ => nul) lastSection "bob".toList
    "users".toList "  ".toList fun _ => none := by
  rw [CommandWordThere, not_not, lshRun_section lastSection_select]
  refine reaches_bind_left (prepare_reaches_crash.mpr ?_)
  rw [if_neg (by decide +kernel)]
  intro hword
  have hnone : explodeString "  ".toList ' ' = [] := by decide
  rw [hnone] at hword
  obtain ⟨word, more, hword⟩ := hword
  cases hword

end Jailkit.Lsh
