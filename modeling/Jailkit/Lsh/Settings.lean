import Jailkit.Ini.Settings
import Jailkit.Lsh.Allowed
import Jailkit.Wrapper.Uchroot

/-!
What the programs do with a configuration that is given as data: jk_chrootsh and jk_uchroot
take their options from it, and jk_lsh is a shell with a few settings.
-/
namespace Jailkit.Lsh

open Wrapper

structure Settings where
  umask : Option Nat
  environment : List Text
  expands : Bool
  paths : Option (List Text)
  executables : Option (List Text)

/-- An absent list is empty before another section, and ends the program in the last one. -/
def executablesAt (p : Ini.Place) : Option (List Text) :=
  match p.value "executables".toList with
  | some value =>
      if value.take 1024 = [] then none else some (explodeString (value.take 1024) ',')
  | none => if p.followed then some [] else none

def settings (p : Ini.Place) : Settings where
  umask := if p.number 8 "umask" = Ini.minusOne then none else some (p.number 8 "umask")
  environment := ((p.string "environment").map (explodeString · ',')).getD []
  expands := p.number 10 "allow_word_expansion" ≠ 0
  paths := (p.string "paths").map (explodeString · ',')
  executables := executablesAt p

def applyUmask : Option Nat → Cmd Unit
  | none => pure ()
  | some mask => do let _ ← perform (.umask mask)

namespace Settings

def split (c : Settings) (command : Text) : Cmd (Option (List Text)) :=
  if c.expands then perform (.wordexp command) else pure (some (explodeString command ' '))

/-- The first word is taken as it is found in the paths. -/
def resolve (c : Settings) : Option (List Text) → Cmd (List Text)
  | some (word :: words) => do
      let new ← expandExecutable word c.paths
      pure (new.getD word :: words)
  | _ => crash

def prepare (c : Settings) (command : Text) : Cmd (List Text) := do
  applyUmask c.umask
  setEnvironment c.environment
  let newargv ← c.split command
  c.resolve newargv

def execute (c : Settings) (newargv : List Text) : Cmd Unit :=
  match c.executables with
  | none => exit 5
  | some arr =>
      if arr.contains (newargv.headD []) then perform (.execve (newargv.headD []) newargv)
      else exit 4

def run (c : Settings) (command : Text) : Cmd Unit := do
  let newargv ← c.prepare command
  c.execute newargv

end Settings

/-- jk_lsh can start the command as `word`: its first word as it is or behind one of the paths,
if the list has it. `wordexp` may answer anything. -/
def Settings.Starts (c : Settings) (command word : Text) (argv : List Text) : Prop :=
  ∃ w words, argv = word :: words ∧
    (c.expands = true ∨ explodeString command ' ' = w :: words) ∧
    (word = w ∨ ∃ paths, c.paths = some paths ∧ ∃ path ∈ paths, word = endingSlash path ++ w) ∧
    ∃ arr, c.executables = some arr ∧ word ∈ arr

/-- The options of jk_chrootsh, for the section if there is one. -/
def chrootshSettings : Option Ini.Place → ChrootshOptions
  | none => {}
  | some p =>
      { envs := (p.string "env").map (explodeString · ',')
        relax_home_group_permissions := p.number 10 "relax_home_group_permissions"
        relax_home_other_permissions := p.number 10 "relax_home_other_permissions"
        relax_home_group := p.number 10 "relax_home_group"
        relax_home_owner := p.number 10 "relax_home_owner"
        injail_shell := p.string "injail_shell"
        skip_injail_passwd_check :=
          if (p.string "injail_shell").isSome then p.number 10 "skip_injail_passwd_check" else 0 }

def uchrootSettings : Option Ini.Place → Option (List Text) × Nat
  | none => (none, 0)
  | some p =>
      ((p.string "allowed_jails").map (explodeString · ','),
        p.number 10 "skip_injail_passwd_check")

/-- jk_lsh behind the choice of the section. -/
def lshSettings (p : Option Ini.Place) (command : Text) : Cmd Unit :=
  match p with
  | none => exit 3
  | some p => (settings p).run command

open Prog

theorem optionName_of {key : Text} (hne : key ≠ [])
    (h : (key.all fun c => decide (isspace c = false ∧ c ≠ '=' ∧ c ≠ '[' ∧ c ≠ '#' ∧ c ≠ nul)) =
      true) : Ini.OptionName key :=
  ⟨hne, Ini.forall_of_all h⟩

theorem exit_bind {α β : Type} (n : Nat) (f : α → Cmd β) : (exit n >>= f : Cmd β) = exit n := by
  have hnone : ∀ r : Empty, ((Empty.elim r : Cmd α) >>= f) = Empty.elim r := fun r => r.elim
  exact congrArg (Prog.call (Call.exit n)) (funext hnone)

section

variable {memory : Memory} {file : Text} {sec : CString} {position : Int} {p : Ini.Place}
  (h : Ini.Reads memory file sec position p)

include h

theorem setUmask_place :
    setUmask memory file sec position = applyUmask (settings p).umask := by
  have hnumber : Ini.iniparserGetOctalintAtPosition file sec (cstring memory "umask".toList)
      position = p.number 8 "umask" :=
    Ini.number_place h 8 "umask" (optionName_of (by decide) (by decide))
  simp only [setUmask, settings]
  generalize Ini.iniparserGetOctalintAtPosition file sec _ position = mask at hnumber ⊢
  subst hnumber
  by_cases habsent : p.number 8 "umask" = Ini.minusOne
  · rw [if_neg (not_not.mpr habsent), if_pos habsent]
    rfl
  · rw [if_pos habsent, if_neg habsent]
    rfl

theorem split_place (command : Text) :
    splitCommand memory file sec position command = (settings p).split command := by
  have hexpands := Ini.number_place h 10 "allow_word_expansion"
    (optionName_of (by decide) (by decide))
  simp only [splitCommand, Ini.intOption, Ini.iniparserGetIntAtPosition, hexpands, Settings.split,
    settings, decide_eq_true_eq]

theorem resolve_place (newargv : Option (List Text)) :
    resolve memory file sec position newargv = (settings p).resolve newargv := by
  have hpaths := Ini.stringOption_place h "paths" (optionName_of (by decide) (by decide))
  cases newargv with
  | none => rfl
  | some argv =>
      cases argv with
      | nil => rfl
      | cons word words =>
          rw [resolve, hpaths]
          exact rfl

theorem prepare_place (command : Text) :
    prepare memory file sec position command = (settings p).prepare command := by
  have henvironment := Ini.stringOption_place h "environment"
    (optionName_of (by decide) (by decide))
  simp only [prepare, Settings.prepare, setUmask_place h, henvironment, split_place h,
    resolve_place h, settings]

theorem readExecutables_place (hposition : asInt position = position) :
    readExecutables memory file sec position = (settings p).executables := by
  obtain ⟨hret, hbuffer⟩ := h "executables".toList 1024 (optionName_of (by decide) (by decide))
  simp only [readExecutables, hposition, hret, hbuffer, Ini.Place.answer, settings, executablesAt]
  cases hvalue : p.value "executables".toList with
  | none => cases p.followed <;> rfl
  | some value =>
      dsimp only
      rw [Ini.Place.take_plain hvalue]
      have hempty : ((value.take 1024).length : Int) = 0 ↔ value.take 1024 = [] := by
        rw [Int.natCast_eq_zero, List.length_eq_zero_iff]
      simp only [hempty]

theorem runAllowed_place (hposition : asInt position = position) (newargv : List Text) :
    runAllowed memory file sec position newargv = (settings p).execute newargv := by
  rw [runAllowed, executableIsAllowed, readExecutables_place h hposition, Settings.execute]
  cases (settings p).executables with
  | none => exact exit_bind 5 _
  | some arr => rfl

end

theorem asInt_of_lt {position : Int} (h : position < 2 ^ 31) : asInt position = position := if_pos h

section

variable {memory : Memory} {config : Ini.Config} {user group : Text} {sec : CString}
  {unread : Text} {p : Ini.Place}
  (hselect : Ini.selectSection memory config.render user group = some (sec, unread))
  (h : Ini.Reads memory config.render sec (Ini.sectionPosition config.render unread sec) p)

include hselect h

theorem chrootshOptions_place :
    chrootshOptions memory config.render user group = chrootshSettings (some p) := by
  have hname : ∀ key ∈ ["relax_home_group_permissions", "relax_home_other_permissions",
      "relax_home_group", "relax_home_owner", "skip_injail_passwd_check"],
      Ini.intOption memory config.render sec (Ini.sectionPosition config.render unread sec) key =
        p.number 10 key := by
    intro key hkey
    refine Ini.number_place h 10 key ?_
    simp only [List.mem_cons, List.not_mem_nil, or_false] at hkey
    rcases hkey with rfl | rfl | rfl | rfl | rfl
    all_goals exact optionName_of (by decide) (by decide)
  have henv := Ini.stringOption_place h "env" (optionName_of (by decide) (by decide))
  have hshell := Ini.stringOption_place h "injail_shell"
    (optionName_of (by decide) (by decide))
  simp only [chrootshOptions, hselect, chrootshSettings, henv, hshell]
  rw [hname _ (by simp), hname _ (by simp), hname _ (by simp), hname _ (by simp),
    hname _ (by simp)]

theorem uchrootOptions_place :
    uchrootOptions memory config.render user group = uchrootSettings (some p) := by
  have hjails := Ini.stringOption_place h "allowed_jails"
    (optionName_of (by decide) (by decide))
  have hskip := Ini.number_place h 10 "skip_injail_passwd_check"
    (optionName_of (by decide) (by decide))
  simp only [uchrootOptions, hselect, uchrootSettings, hjails]
  exact congrArg _ hskip

theorem lshRun_place (hposition : Ini.sectionPosition config.render unread sec < 2 ^ 31)
    (command : Text) :
    lshRun memory config.render user group command = (settings p).run command := by
  rw [lshRun_section hselect, prepare_place h, Settings.run]
  exact congrArg _ (funext fun newargv => runAllowed_place h (asInt_of_lt hposition) newargv)

end

section

variable {memory : Memory} {command word : Text} {words argv : List Text}

variable {file : Text} {sec : CString} {position : Int}

theorem resolve_returns_cons {newargv : Option (List Text)}
    (h : Returns anyAnswer (resolve memory file sec position newargv) () argv ()) :
    ∃ word words, argv = word :: words := by
  unfold resolve at h
  split at h
  next =>
    obtain ⟨new, _, -, h⟩ := returns_bind_iff.mp h
    exact ⟨_, _, (returns_pure.mp h).1⟩
  next =>
    cases h with
    | @call _ _ _ r => exact r.elim

/-- How the words that jk_lsh has before its check come from the command. -/
theorem prepare_returns
    (h : Returns anyAnswer (prepare memory file sec position command) () argv ()) :
    ∃ word w words, argv = word :: words ∧
      (Ini.intOption memory file sec position "allow_word_expansion" ≠ 0 ∨
        explodeString command ' ' = w :: words) ∧
      (word = w ∨ ∃ paths, pathList memory file sec position = some paths ∧
        ∃ path ∈ paths, word = endingSlash path ++ w) := by
  obtain ⟨_, _, -, h⟩ := returns_bind_iff.mp h
  obtain ⟨_, _, -, h⟩ := returns_bind_iff.mp h
  obtain ⟨newargv, _, hsplit, hresolve⟩ := returns_bind_iff.mp h
  obtain ⟨word, words, rfl⟩ := resolve_returns_cons hresolve
  obtain ⟨w, hw, hword⟩ := resolve_returns_iff.mp hresolve
  refine ⟨word, w, words, rfl, (splitCommand_returns_iff.mp hsplit).imp_right fun hargv => ?_,
    hword⟩
  rw [hw] at hargv
  exact (Option.some.inj hargv).symm

variable {config : Ini.Config} {user group : Text} {p : Ini.Place} {unread : Text}

theorem execve_place
    (hselect : Ini.selectSection memory config.render user group = some (sec, unread))
    (h : Ini.Reads memory config.render sec (Ini.sectionPosition config.render unread sec) p)
    (hposition : Ini.sectionPosition config.render unread sec < 2 ^ 31) :
    Reaches anyAnswer (lshRun memory config.render user group command) () (.execve word argv) () ↔
      (settings p).Starts command word argv := by
  have hexpands := Ini.number_place h 10 "allow_word_expansion"
    (optionName_of (by decide) (by decide))
  have hpaths := Ini.stringOption_place h "paths" (optionName_of (by decide) (by decide))
  have hitems := readExecutables_place h (asInt_of_lt hposition)
  rw [lshRun_section hselect]
  constructor
  · intro hreach
    rcases reaches_bind_cases hreach with hreach | ⟨newargv, _, hret, hreach⟩
    · exact absurd hreach prepare_not_execve
    · obtain ⟨hword, hargv, harr⟩ := runAllowed_reaches_iff.mp hreach
      rw [hitems] at harr
      obtain ⟨word', w, words, rfl, hfirst, hfound⟩ := prepare_returns hret
      rw [List.headD_cons] at hword
      subst hword
      refine ⟨w, words, hargv, hfirst.imp_left fun hne => ?_, ?_, harr⟩
      · rw [Ini.intOption, Ini.iniparserGetIntAtPosition, hexpands] at hne
        exact decide_eq_true hne
      · rwa [pathList, hpaths] at hfound
  · rintro ⟨w, words, rfl, hfirst, hfound, harr⟩
    have hsplit : Returns anyAnswer (splitCommand memory config.render sec
        (Ini.sectionPosition config.render unread sec) command) () (some (w :: words)) () := by
      refine splitCommand_returns_iff.mpr (hfirst.imp (fun hon => ?_) fun heq => by rw [heq])
      rw [Ini.intOption, Ini.iniparserGetIntAtPosition, hexpands]
      exact of_decide_eq_true hon
    have hfound : word = w ∨ ∃ paths, pathList memory config.render sec
        (Ini.sectionPosition config.render unread sec) = some paths ∧
          ∃ path ∈ paths, word = endingSlash path ++ w := by
      rwa [pathList, hpaths]
    have hresolve : Returns anyAnswer (resolve memory config.render sec
        (Ini.sectionPosition config.render unread sec) (some (w :: words))) () (word :: words) () :=
      resolve_returns_iff.mpr ⟨w, rfl, hfound⟩
    have hprepare : Returns anyAnswer (prepare memory config.render sec
        (Ini.sectionPosition config.render unread sec) command) () (word :: words) () := by
      have humask := @setUmask_returns anyAnswer (fun _ _ => trivial) memory config.render sec
        (Ini.sectionPosition config.render unread sec)
      refine returns_bind humask ?_
      refine returns_bind (setEnvironment_returns (fun _ _ _ => trivial) _) ?_
      exact returns_bind hsplit hresolve
    refine reaches_bind_right hprepare ?_
    exact runAllowed_reaches_iff.mpr ⟨rfl, rfl, by rwa [hitems]⟩

end

section

variable {memory : Memory} {config : Ini.Config} {user group command word : Text}
  {argv : List Text} (hsize : config.render.length < 2 ^ 31)

include hsize

theorem execve_config :
    Reaches anyAnswer (lshRun memory config.render user group command) () (.execve word argv) () ↔
      ∃ p, config.select (cText user) (cText group) = some p ∧
        (settings p).Starts command word argv := by
  rcases Ini.selectSection_place memory config user group hsize with
    ⟨hplace, hnone⟩ | ⟨p, sec, unread, hplace, hselect, hreads, hposition⟩
  · rw [hplace, lshRun, hnone]
    refine iff_of_false (not_reaches_of_only (P := (· ≠ .execve word argv))
      (only_exit (by simp)) (not_not_intro rfl)) ?_
    rintro ⟨p, hp, -⟩
    cases hp
  · rw [hplace, execve_place hselect hreads hposition]
    simp

end

/-- The programs act on the file of a configuration as on what it says. -/
theorem config_programs (config : Ini.Config) (memory : Memory) (user group command : Text)
    (hsize : config.render.length < 2 ^ 31) :
    chrootshOptions memory config.render user group =
        chrootshSettings (config.select (cText user) (cText group)) ∧
      uchrootOptions memory config.render user group =
        uchrootSettings (config.select (cText user) (cText group)) ∧
      lshRun memory config.render user group command =
        lshSettings (config.select (cText user) (cText group)) command ∧
      ∀ word argv, Reaches anyAnswer (lshRun memory config.render user group command) ()
          (.execve word argv) () ↔
        ∃ p, config.select (cText user) (cText group) = some p ∧
          (settings p).Starts command word argv := by
  rw [← and_assoc, ← and_assoc]
  refine ⟨?_, fun word argv => execve_config hsize⟩
  rw [and_assoc]
  rcases Ini.selectSection_place memory config user group hsize with
    ⟨hplace, hnone⟩ | ⟨p, sec, unread, hplace, hselect, hreads, hposition⟩
  · rw [hplace]
    exact ⟨by rw [chrootshOptions, hnone]; rfl, by rw [uchrootOptions, hnone]; rfl,
      by rw [lshRun, hnone]; rfl⟩
  · rw [hplace]
    exact ⟨chrootshOptions_place hselect hreads, uchrootOptions_place hselect hreads,
      lshRun_place hselect hreads hposition command⟩

def joeConfig : Ini.Config := ⟨[Ini.joe], by decide⟩

theorem config_programs_joe :
    Reaches anyAnswer (lshRun (fun _ _ => nul) joeConfig.render "joe".toList "users".toList
      "/bin/ls -l".toList) () (.execve "/bin/ls".toList ["/bin/ls".toList, "-l".toList]) () := by
  have hselect : joeConfig.select (cText "joe".toList) (cText "users".toList) =
      some ⟨Ini.joe, false⟩ := by rfl
  have hwords : explodeString "/bin/ls -l".toList ' ' = ["/bin/ls".toList, "-l".toList] := by
    decide
  have harr : (settings ⟨Ini.joe, false⟩).executables =
      some ["/bin/ls".toList, "# none".toList] := by decide +kernel
  obtain ⟨-, -, -, hstarts⟩ := config_programs joeConfig (fun _ _ => nul) "joe".toList
    "users".toList "/bin/ls -l".toList (by decide)
  refine (hstarts _ _).mpr ⟨_, hselect, "/bin/ls".toList, ["-l".toList], rfl, Or.inr hwords,
    Or.inl rfl, _, harr, ?_⟩
  exact List.mem_cons_self

end Jailkit.Lsh
