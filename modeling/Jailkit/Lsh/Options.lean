import Jailkit.Lsh.Main

/-!
The options of jk_lsh that are not configured: where they stay off. A number read as
absent is -1 or 0; the umask is changed by the one and words are expanded by the other.
-/
namespace Jailkit.Lsh

open Prog Wrapper

/-- The call is none of `wordexp`, `umask` and `execve`. -/
def Plain : Call → Prop
  | .wordexp _ | .umask _ | .execve _ _ => False
  | _ => True

theorem setEnvironment_only {P : Call → Prop} (h : ∀ key value, P (.setenv key value))
    (entries : List Text) : (setEnvironment entries).Only P := by
  induction entries with
  | nil => trivial
  | cons entry entries ih =>
      refine only_bind ?_ fun _ => ih
      rw [setEntry]
      split
      · exact only_call (h _ _)
      · trivial

theorem expandLoop_only {P : Call → Prop} (h : ∀ path, P (.stat path)) (executable : Text)
    (paths : List Text) : (expandLoop executable paths).Only P := by
  induction paths with
  | nil => trivial
  | cons path paths ih =>
      refine only_bind (only_call (h _)) fun r => ?_
      split
      · trivial
      · exact ih

theorem expandExecutable_only {P : Call → Prop} (h : ∀ path, P (.stat path))
    (executable : Text) (paths : Option (List Text)) :
    (expandExecutable executable paths).Only P := by
  refine only_bind ?_ fun found => ?_
  · rw [isAbsoluteFile]
    split
    · exact only_bind (only_call (h _)) fun _ => trivial
    · trivial
  · split
    · trivial
    · cases paths with
      | none => trivial
      | some paths => exact expandLoop_only h executable paths

theorem resolve_plain (memory : Memory) (file : Text) (sec : CString) (position : Int)
    (newargv : Option (List Text)) :
    (resolve memory file sec position newargv).Only Plain := by
  unfold resolve
  split
  · exact only_bind (expandExecutable_only (fun _ => trivial) _ _) fun _ => trivial
  · exact ⟨trivial, fun r => r.elim⟩

theorem executableIsAllowed_only {P : Call → Prop} (h : P (.exit 5)) (memory : Memory)
    (file : Text) (sec : CString) (position : Int) (executable : Text) :
    (executableIsAllowed memory file sec position executable).Only P := by
  rw [executableIsAllowed]
  split
  · exact only_exit h
  · trivial

theorem setUmask_only {P : Call → Prop} {memory : Memory} {file : Text} {sec : CString}
    {position : Int} (h : ∀ mask, P (.umask mask)) :
    (setUmask memory file sec position).Only P := by
  unfold setUmask
  dsimp only
  split
  · exact only_bind (only_call (h _)) fun _ => trivial
  · trivial

theorem splitCommand_only {P : Call → Prop} {memory : Memory} {file command : Text}
    {sec : CString} {position : Int} (h : P (.wordexp command)) :
    (splitCommand memory file sec position command).Only P := by
  rw [splitCommand]
  split
  · exact only_call h
  · trivial

theorem setUmask_returns {M : Machine Call Res Unit} (hM : ∀ mask r, M () (.umask mask) r ())
    (memory : Memory) (file : Text) (sec : CString) (position : Int) :
    Returns M (setUmask memory file sec position) () () () := by
  simp only [setUmask]
  split
  · exact .call (r := 0) (hM _ _) .ret
  · exact .ret

theorem setEnvironment_returns {M : Machine Call Res Unit}
    (hM : ∀ key value r, M () (.setenv key value) r ()) (entries : List Text) :
    Returns M (setEnvironment entries) () () () := by
  induction entries with
  | nil => exact .ret
  | cons entry entries ih =>
      have hentry : Returns M (setEntry entry) () () () := by
        rw [setEntry]
        split
        · exact .call (r := ()) (hM _ _ _) .ret
        · exact .ret
      exact returns_bind hentry ih

theorem lshRun_section {memory : Memory} {file user group command body : Text} {sec : CString}
    (h : Ini.selectSection memory file user group = some (sec, body)) :
    lshRun memory file user group command =
      (prepare memory file sec (Ini.sectionPosition file body sec) command >>=
        runAllowed memory file sec (Ini.sectionPosition file body sec)) := by
  rw [lshRun, h]

section Parts

variable {P : Call → Prop} (hplain : ∀ c, Plain c → P c)
variable {memory : Memory} {file : Text} {sec : CString} {position : Int} {command : Text}
include hplain

/-- Before the check of the command, only two parts of main issue other calls. -/
theorem prepare_only (humask : (setUmask memory file sec position).Only P)
    (hsplit : (splitCommand memory file sec position command).Only P) :
    (prepare memory file sec position command).Only P := by
  apply only_bind humask
  intro _
  apply only_bind (setEnvironment_only (fun _ _ => hplain _ trivial) _)
  intro _
  apply only_bind hsplit
  intro newargv
  exact only_mono (resolve_plain _ _ _ _ newargv) hplain

theorem runAllowed_only (hexec : ∀ w argv, P (.execve w argv)) (newargv : List Text) :
    (runAllowed memory file sec position newargv).Only P := by
  apply only_bind (executableIsAllowed_only (hplain _ trivial) _ _ _ _ _)
  intro b
  split
  · exact only_call (hexec _ _)
  · exact only_exit (hplain _ trivial)

end Parts

section Reached

variable {memory : Memory} {file user group body : Text} {sec : CString}
variable (h : Ini.selectSection memory file user group = some (sec, body))
include h

/-- Words are expanded exactly if the number read is not 0. -/
theorem wordexp_reached_iff (command : Text) :
    (∃ s, Reaches anyAnswer (lshRun memory file user group command) () (.wordexp s) ()) ↔
      Ini.intOption memory file sec (Ini.sectionPosition file body sec)
        "allow_word_expansion" ≠ 0 := by
  rw [lshRun_section h]
  constructor
  · intro ⟨s, hreach⟩ hzero
    have hplain : ∀ c, Plain c → ∀ s, c ≠ .wordexp s := by
      intro c hc s hs
      simp [hs, Plain] at hc
    apply not_reaches_of_only (only_bind (prepare_only hplain ?_ ?_)
      (runAllowed_only hplain (by simp))) (fun hs => hs s rfl) hreach
    · exact setUmask_only (by simp)
    · rw [splitCommand, if_neg (not_not_intro hzero)]
      trivial
  · intro hnumber
    have humask := @setUmask_returns anyAnswer (fun _ _ => trivial) memory file sec
      (Ini.sectionPosition file body sec)
    have henv := @setEnvironment_returns anyAnswer fun _ _ _ => trivial
    refine ⟨command, reaches_bind_left (reaches_bind_right humask
      (reaches_bind_right (henv _) (reaches_bind_left ?_)))⟩
    rw [splitCommand, if_pos hnumber]
    exact .here

/-- The umask is changed unless -1 is read. -/
theorem umask_reached_iff (command : Text) :
    (∃ mask, Reaches anyAnswer (lshRun memory file user group command) () (.umask mask) ()) ↔
      Ini.iniparserGetOctalintAtPosition file sec (cstring memory "umask".toList)
        (Ini.sectionPosition file body sec) ≠ Ini.minusOne := by
  rw [lshRun_section h]
  constructor
  · intro ⟨mask, hreach⟩ habsent
    have hplain : ∀ c, Plain c → ∀ mask, c ≠ .umask mask := by
      intro c hc mask hmask
      simp [hmask, Plain] at hc
    apply not_reaches_of_only (only_bind (prepare_only hplain ?_ ?_)
      (runAllowed_only hplain (by simp))) (fun hmask => hmask mask rfl) hreach
    · unfold setUmask
      rw [if_neg (not_not_intro habsent)]
      trivial
    · exact splitCommand_only (by simp)
  · intro hnumber
    refine ⟨Ini.iniparserGetOctalintAtPosition file sec (cstring memory "umask".toList)
      (Ini.sectionPosition file body sec), reaches_bind_left (reaches_bind_left ?_)⟩
    unfold setUmask
    rw [if_pos hnumber]
    exact .here

end Reached

/-- The text of a section has a line with exactly this key. -/
def HasLine (body : Text) (key : String) : Prop := ∃ r, Ini.LineIn body key.toList r

/-- Without a line for it in the selected section, no word is expanded and the umask
is left alone. -/
def OptionsOff (memory : Memory) (file user group : Text) : Prop :=
  ∀ sec body, Ini.selectSection memory file user group = some (sec, body) → ∀ command,
    (¬ HasLine body "allow_word_expansion" →
      splitCommand memory file sec (Ini.sectionPosition file body sec) command =
          pure (some (explodeString command ' ')) ∧
        ¬ ∃ s, Reaches anyAnswer (lshRun memory file user group command) () (.wordexp s) ()) ∧
    (¬ HasLine body "umask" →
      ¬ ∃ mask, Reaches anyAnswer (lshRun memory file user group command) () (.umask mask) ())

/-- Both options stay off exactly if the two readers of absent numbers are lucky: the
one must not see another section, the other must. -/
theorem optionsOff_iff (memory : Memory) (file user group : Text) :
    OptionsOff memory file user group ↔
      ∀ sec body, Ini.selectSection memory file user group = some (sec, body) →
        let text := Ini.fseek file (Ini.sectionPosition file body sec)
        let expansion := cstring memory "allow_word_expansion".toList
        let umask := cstring memory "umask".toList
        (¬ HasLine body "allow_word_expansion" →
          ¬ Ini.RunsIntoSection sec expansion text ∧
            ¬ Ini.TakesNumber sec expansion text 10 (· ≠ 0)) ∧
        (¬ HasLine body "umask" →
          Ini.RunsIntoSection sec umask text ∨
            Ini.TakesNumber sec umask text 8 (· = Ini.minusOne)) := by
  refine forall_congr' fun sec => forall_congr' fun body => forall_congr' fun h => ?_
  have hexpand : Ini.intOption memory file sec (Ini.sectionPosition file body sec)
      "allow_word_expansion" ≠ 0 ↔ _ := Ini.number_ne_zero 10 file sec
        (cstring memory "allow_word_expansion".toList) (Ini.sectionPosition file body sec)
  have humask : Ini.iniparserGetOctalintAtPosition file sec (cstring memory "umask".toList)
      (Ini.sectionPosition file body sec) = Ini.minusOne ↔ _ :=
    Ini.number_eq_minusOne 8 file sec (cstring memory "umask".toList)
      (Ini.sectionPosition file body sec)
  dsimp only
  rw [← not_or, ← hexpand, ← humask]
  constructor
  · intro hoff
    obtain ⟨hwords, hmask⟩ := hoff []
    refine ⟨fun hline => ?_, fun hline => ?_⟩
    · rw [← wordexp_reached_iff h []]
      exact (hwords hline).2
    · have hnot := hmask hline
      rwa [umask_reached_iff h, ne_eq, not_not] at hnot
  · intro hoff command
    refine ⟨fun hline => ⟨?_, ?_⟩, fun hline => ?_⟩
    · rw [splitCommand, if_neg (hoff.1 hline)]
    · rw [wordexp_reached_iff h]
      exact hoff.1 hline
    · rw [umask_reached_iff h, ne_eq, not_not]
      exact hoff.2 hline

/-- A section alone in its file, where the absent umask reads as 0. -/
def lastSection : Text := "[DEFAULT]\nexecutables=/bin/ls\n".toList

theorem lastSection_select :
    Ini.selectSection (fun _ _ => nul) lastSection "bob".toList "users".toList =
      some (cstring (fun _ _ => nul) "DEFAULT".toList, "\nexecutables=/bin/ls\n".toList) := by
  have huser : Ini.iniparserHasSection lastSection
      (cstring (fun _ _ => nul) "bob".toList) = none := by decide +kernel
  have hgroup : Ini.iniparserHasSection lastSection
      (cstring (fun _ _ => nul) ("group ".toList ++ "users".toList)) = none := by
    decide +kernel
  have hdefault : Ini.iniparserHasSection lastSection
      (cstring (fun _ _ => nul) "DEFAULT".toList) =
        some "\nexecutables=/bin/ls\n".toList := by decide +kernel
  simp only [Ini.selectSection, huser, hgroup, hdefault, Option.map_some]

/-- A umask that is not configured becomes 0 at the end of the file. -/
theorem optionsOff_last_section :
    ¬ OptionsOff (fun _ _ => nul) lastSection "bob".toList "users".toList := by
  intro hoff
  obtain ⟨-, hmask⟩ := hoff _ _ lastSection_select []
  have hline : ¬ HasLine "\nexecutables=/bin/ls\n".toList "umask" := by
    rintro ⟨r, B, K, hbody, -, -, -, hK⟩
    have hm : 'm' ∈ K := mem_of_mem_trim (by rw [hK]; decide)
    have hbody' : 'm' ∈ "\nexecutables=/bin/ls\n".toList := by
      rw [hbody]
      simp [hm]
    exact absurd hbody' (by decide)
  refine hmask hline ((umask_reached_iff lastSection_select []).mpr ?_)
  decide +kernel

end Jailkit.Lsh
