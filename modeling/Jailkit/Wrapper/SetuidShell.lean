import Jailkit.Wrapper.Privileges

/-!
What `testsafepath` has said of a program when a wrapper starts it.
-/
namespace Jailkit.Wrapper

open Prog

/-- The calls of `testsafepath` so far: the path, and what `lstat` answered. -/
abbrev Tests := List (Text × Option Stat)

def noteTest (t : Tests) : (c : Call) → Res c → Tests
  | .lstat path, sbuf => t ++ [(path, sbuf)]
  | _, _ => t

/-- The machine of the wrappers, with the tests written down. -/
def testing : Machine Call Res (Process × Tests) := fun s c r s' =>
  kernel s.1 c r s'.1 ∧ s'.2 = noteTest s.2 c r

def lastTest (t : Tests) (path : Text) : Option (Option Stat) :=
  (t.reverse.find? fun e => e.1 == path).map Prod.snd

/-- The last call of `testsafepath` on the path reported neither of the two bits. -/
def ReportedPlain (t : Tests) (path : Text) : Prop :=
  ∃ sbuf, lastTest t path = some sbuf ∧
    ∀ owner group, has (testsafepath sbuf owner group) TESTPATH_SETUID = false ∧
      has (testsafepath sbuf owner group) TESTPATH_SETGID = false

/-- The file that was there, if there was one, had neither bit in its mode. -/
def PlainFile (t : Tests) (path : Text) : Prop :=
  ∀ s, lastTest t path = some (some s) → s.mode S_ISUID = false ∧ s.mode S_ISGID = false

def TestedFirst (s : Process × Tests) (c : Call) : Prop :=
  ∀ path argv, c = .execv path argv → ∃ sbuf, lastTest s.2 path = some sbuf

/-- No test comes in this call, and no program but the one at `path` starts. -/
def Starts (path : Text) (c : Call) : Prop :=
  (∀ p, c ≠ .lstat p) ∧ ∀ p argv, c = .execv p argv → p = path

variable {α β : Type} {s : Process × Tests}

theorem reportedPlain_iff {t : Tests} {path : Text}
    (h : ∃ sbuf, lastTest t path = some sbuf) : ReportedPlain t path ↔ PlainFile t path := by
  obtain ⟨sbuf, hlast⟩ := h
  simp only [ReportedPlain, PlainFile, hlast, Option.some.injEq, exists_eq_left']
  cases sbuf with
  | none =>
      have hnone : has TESTPATH_NOREGPATH TESTPATH_SETUID = false ∧
          has TESTPATH_NOREGPATH TESTPATH_SETGID = false := by decide
      exact ⟨fun _ s hs => (by cases hs), fun _ _ _ => hnone⟩
  | some st =>
      have hspec : ∀ owner group, has (testsafepath (some st) owner group) TESTPATH_SETUID =
          st.mode S_ISUID ∧ has (testsafepath (some st) owner group) TESTPATH_SETGID =
          st.mode S_ISGID := fun owner group =>
        ⟨(testsafepath_spec st owner group).2.1, (testsafepath_spec st owner group).2.2.1⟩
      constructor
      · intro h s hs
        cases hs
        have h₀ := h 0 0
        rwa [(hspec 0 0).1, (hspec 0 0).2] at h₀
      · intro h owner group
        rw [(hspec owner group).1, (hspec owner group).2]
        exact h st rfl

theorem lastTest_snoc (t : Tests) (path : Text) (sbuf : Option Stat) :
    lastTest (t ++ [(path, sbuf)]) path = some sbuf := by
  simp [lastTest]

def NotExecv (c : Call) : Prop := ∀ path argv, c ≠ .execv path argv

theorem harmless_notExecv {c : Call} (h : Harmless c) : NotExecv c := by
  intro path argv heq
  rw [heq] at h
  exact h

theorem only_notExecv {p : Cmd α} (hp : p.Only Harmless) : p.Only NotExecv :=
  only_mono hp fun _ => harmless_notExecv

theorem always_notExecv {p : Cmd α} (hp : p.Only NotExecv) :
    p.Always testing TestedFirst (fun _ _ => True) s := by
  refine always_of_only hp (fun _ _ _ _ _ _ _ => trivial) ?_ trivial
  intro s c hc _ path argv h
  exact absurd h (hc path argv)

/-- A part in which no program starts. -/
theorem always_bind_notExecv {p : Cmd α} {f : α → Cmd β} (hp : p.Only NotExecv)
    (hf : ∀ a s', (f a).Always testing TestedFirst (fun _ _ => True) s') :
    (p >>= f).Always testing TestedFirst (fun _ _ => True) s := by
  rw [always_bind]
  exact always_mono (always_notExecv hp) fun a s' _ => hf a s'

/-- The test comes first, then the program that it was about. -/
theorem always_test {path : Text} {rest : Option Stat → Cmd α}
    (h : ∀ sbuf, (rest sbuf).Only (Starts path)) :
    (perform (.lstat path) >>= rest).Always testing TestedFirst (fun _ _ => True) s := by
  refine ⟨fun p argv heq => (by cases heq), fun sbuf s' hs' => ?_⟩
  let Tested (s : Process × Tests) : Prop := ∃ sbuf, lastTest s.2 path = some sbuf
  have hlast : Tested s' := ⟨sbuf, by rw [hs'.2]; exact lastTest_snoc s.2 path sbuf⟩
  have hrun := @always_of_only _ _ _ _ testing TestedFirst (Starts path) _ Tested s' (h sbuf)
  refine always_mono (hrun ?_ ?_ hlast) fun _ _ _ => trivial
  · intro s₁ c r s₂ hc hlast hstep
    have hsame : s₂.2 = s₁.2 := by
      rw [hstep.2]
      cases c with
      | lstat p => exact absurd rfl (hc.1 p)
      | _ => rfl
    obtain ⟨sbuf, hsbuf⟩ := hlast
    exact ⟨sbuf, by rw [hsame]; exact hsbuf⟩
  · intro s₁ c hc hlast p argv heq
    rw [hc.2 p argv heq]
    exact hlast

theorem only_quiet_notExecv {p : Cmd α} (hp : p.Only Quiet) : p.Only NotExecv :=
  only_mono hp fun _ hc path => (hc path).2

theorem dropPrivileges_notExecv (b : Build) (useCapabilities : Bool)
    (gids : Option (List Nat)) : (dropPrivileges b useCapabilities gids).Only NotExecv :=
  only_quiet_notExecv (dropPrivileges_quiet b useCapabilities gids)

theorem dropToUser_notExecv (pw : Passwd) : (dropToUser pw).Only NotExecv :=
  only_quiet_notExecv (dropToUser_quiet pw)

theorem starts_other {path : Text} {c : Call} (hlstat : ∀ p, c ≠ .lstat p)
    (hexecv : NotExecv c) : Starts path c :=
  ⟨hlstat, fun p argv h => absurd h (hexecv p argv)⟩

theorem starts_execv (path : Text) (argv : List Text) : Starts path (.execv path argv) := by
  refine ⟨fun p h => (by cases h), fun p args h => ?_⟩
  cases h
  rfl

/-- Between the test and `execv` stand the calls that prepare the environment. -/
theorem startShell_tested (pw : Passwd) (shell newhome : Text) (argv : List Text) :
    (startShell pw shell newhome argv).Always testing TestedFirst (fun _ _ => True) s := by
  refine always_test fun _ => ?_
  have hsetenv : ∀ name value, (perform (.setenv name value)).Only (Starts shell) :=
    fun name value => only_call (starts_other (fun p h => by cases h) fun p a h => by cases h)
  have hexit : ∀ n, Starts shell (.exit n) :=
    fun n => starts_other (fun p h => by cases h) fun p a h => by cases h
  refine only_bind (hsetenv _ _) fun _ => only_bind (hsetenv _ _) fun _ => ?_
  refine only_bind (hsetenv _ _) fun _ => only_bind (hsetenv _ _) fun _ => ?_
  refine only_bind (only_call ?_) fun _ => only_bind (only_exitIf (hexit 41)) fun _ => ?_
  · exact starts_other (fun p h => by cases h) fun p a h => by cases h
  · exact only_bind (only_call (starts_execv shell _)) fun _ => only_exit (hexit 111)

theorem startProcmail_tested (b : Build) (pw : Passwd) (newhome : Text) (argv : List Text) :
    (startProcmail b pw newhome argv).Always testing TestedFirst (fun _ _ => True) s := by
  refine always_test fun _ => ?_
  have hsetenv : ∀ name value, (perform (.setenv name value)).Only (Starts b.procmailpath) :=
    fun name value => only_call (starts_other (fun p h => by cases h) fun p a h => by cases h)
  have hexit : ∀ n, Starts b.procmailpath (.exit n) :=
    fun n => starts_other (fun p h => by cases h) fun p a h => by cases h
  refine only_bind (hsetenv _ _) fun _ => only_bind (hsetenv _ _) fun _ => ?_
  refine only_bind (only_call ?_) fun _ => only_bind (only_exitIf (hexit 41)) fun _ => ?_
  · exact starts_other (fun p h => by cases h) fun p a h => by cases h
  · exact only_bind (only_call (starts_execv b.procmailpath _)) fun _ => only_exit (hexit 111)

theorem jailUser_notExecv (o : ChrootshOptions) (user : Option Text) (pw : Passwd)
    (gr_name newhome : Text) : (jailUser o user pw gr_name newhome).Only NotExecv := by
  rw [jailUser]
  split
  · exact only_notExecv (injailUser_harmless user pw gr_name newhome)
  · trivial

theorem chrootshMain_tested (b : Build) (memory : Memory) (fuel : Nat) (argv : List Text)
    (s : Process × Tests) :
    (chrootshMain b memory fuel argv).Always testing TestedFirst (fun _ _ => True) s := by
  refine always_bind_notExecv (only_notExecv (only_exitIf trivial)) fun _ s => ?_
  refine always_bind_notExecv (only_notExecv (setuidCheck_harmless b)) fun useCapabilities s => ?_
  refine always_bind_notExecv (only_notExecv userInfo_harmless) fun info s => ?_
  refine always_bind_notExecv (only_call fun _ _ h => by cases h) fun gids s => ?_
  cases gids with
  | none => exact always_notExecv (only_notExecv (only_exit trivial))
  | some gids =>
      refine always_bind_notExecv
        (only_notExecv (readChrootshOptions_harmless b memory _ _)) fun o s => ?_
      refine always_bind_notExecv (only_notExecv (closeDescriptors_harmless fuel)) fun _ s => ?_
      refine always_bind_notExecv (only_notExecv (unsetEnvironExcept_harmless _ fuel))
        fun _ s => ?_
      refine always_bind_notExecv (only_notExecv (findJail_harmless _)) fun jail s => ?_
      refine always_bind_notExecv (only_notExecv (checkHome_harmless o _ _)) fun _ s => ?_
      refine always_bind_notExecv (only_call fun _ _ h => by cases h) fun _ s => ?_
      refine always_bind_notExecv (only_notExecv (only_exitIf trivial)) fun _ s => ?_
      refine always_bind_notExecv (dropPrivileges_notExecv b _ _) fun _ s => ?_
      refine always_bind_notExecv (jailUser_notExecv o _ _ _ _) fun _ s => ?_
      exact startShell_tested _ _ _ argv

theorem procmailMain_tested (b : Build) (fuel : Nat) (argv : List Text)
    (s : Process × Tests) :
    (procmailMain b fuel argv).Always testing TestedFirst (fun _ _ => True) s := by
  refine always_bind_notExecv (only_call fun _ _ h => by cases h) fun _ s => ?_
  refine always_bind_notExecv (only_call fun _ _ h => by cases h) fun r s => ?_
  cases r with
  | none => exact ⟨fun _ _ h => (by cases h), fun r => r.elim⟩
  | some pw =>
      simp only
      split
      · exact always_notExecv (only_quiet_notExecv (runUnjailed_quiet b pw argv))
      · refine always_bind_notExecv (only_notExecv (only_exitIf trivial)) fun _ s => ?_
        refine always_bind_notExecv (only_call fun _ _ h => by cases h) fun limit s => ?_
        refine always_bind_notExecv (only_notExecv (closeDownTo_harmless fuel _)) fun _ s => ?_
        refine always_bind_notExecv ?_ fun _ s => ?_
        · refine only_bind (only_call fun _ _ h => by cases h) fun _ => ?_
          refine only_bind (only_notExecv (only_exitIf trivial)) fun _ => ?_
          refine only_bind (only_call fun _ _ h => by cases h) fun _ => ?_
          exact only_notExecv (only_exitIf trivial)
        refine always_bind_notExecv (only_notExecv (procmailJail_harmless pw)) fun jail s => ?_
        refine always_bind_notExecv (only_call fun _ _ h => by cases h) fun _ s => ?_
        refine always_bind_notExecv (only_notExecv (only_exitIf trivial)) fun _ s => ?_
        refine always_bind_notExecv (dropToUser_notExecv pw) fun _ s => ?_
        refine always_bind_notExecv (only_notExecv (injailPasswd_harmless pw _ _)) fun _ s => ?_
        exact startProcmail_tested b _ _ argv

/-- Where a wrapper starts the program in the jail, its last test reported neither bit
exactly when the file that `lstat` found has neither. The result of the test is not looked
at, so nothing else keeps such a file from being started. -/
theorem execv_plain_iff (b : Build) (memory : Memory) (fuel : Nat) (argv : List Text)
    (s₀ s : Process × Tests) (path : Text) (args : List Text)
    (h : Reaches testing (chrootshMain b memory fuel argv) s₀ (.execv path args) s ∨
      Reaches testing (procmailMain b fuel argv) s₀ (.execv path args) s) :
    ReportedPlain s.2 path ↔ PlainFile s.2 path := by
  apply reportedPlain_iff
  cases h with
  | inl h => exact guard_of_reaches (chrootshMain_tested b memory fuel argv s₀) h path args rfl
  | inr h => exact guard_of_reaches (procmailMain_tested b fuel argv s₀) h path args rfl

/-- The programs in the jail have this mode; else the calls are answered as above. -/
def fileAnswer (mode : Nat) (s : Process) : (c : Call) → Option (Res c × Process)
  | .lstat path =>
      if path = "/bin/sh".toList ∨ path = sampleBuild.procmailpath then
        some (some ⟨mode, 0, 0⟩, s)
      else sampleAnswer s (.lstat path)
  | c => sampleAnswer s c

def programAnswer (mode : Nat) (s : Process × Tests) (c : Call) :
    Option (Res c × (Process × Tests)) :=
  (fileAnswer mode s.1 c).map fun a => (a.1, (a.2, noteTest s.2 c a.1))

theorem fileAnswer_kernel (mode : Nat) (s : Process) (c : Call) (r : Res c) (s' : Process)
    (h : fileAnswer mode s c = some (r, s')) : kernel s c r s' := by
  cases c with
  | lstat path =>
      simp only [fileAnswer] at h
      split at h
      · cases h
        rfl
      · exact sampleAnswer_kernel s _ r s' h
  | _ => exact sampleAnswer_kernel s _ r s' h

theorem programAnswer_testing (mode : Nat) (s : Process × Tests) (c : Call) (r : Res c)
    (s' : Process × Tests) (h : programAnswer mode s c = some (r, s')) : testing s c r s' := by
  obtain ⟨a, ha, heq⟩ := Option.map_eq_some_iff.mp h
  cases heq
  exact ⟨fileAnswer_kernel mode s.1 c a.1 a.2 ha, rfl⟩

/-- The run comes to start the program, and the test has seen its mode. -/
def startsWith (mode : Nat) (path : Text) (d : Call × (Process × Tests)) : Bool :=
  match d.1 with
  | .execv p _ => p == path && lastTest d.2.2 path == some (some ⟨mode, 0, 0⟩)
  | _ => false

theorem startsWith_execv {mode : Nat} {path : Text} {d : Call} {s : Process × Tests}
    (h : startsWith mode path (d, s) = true) :
    (∃ args, d = .execv path args) ∧ lastTest s.2 path = some (some ⟨mode, 0, 0⟩) := by
  cases d with
  | execv p args =>
      simp only [startsWith, Bool.and_eq_true, beq_iff_eq] at h
      exact ⟨⟨args, by rw [h.1]⟩, h.2⟩
  | _ => simp [startsWith] at h

theorem execv_plain_iff_sample :
    ∃ s args, Reaches testing (chrootshMain sampleBuild (fun _ _ => nul) 9
        ["jk_chrootsh".toList]) (sampleStart, []) (.execv "/bin/sh".toList args) s ∧
      (ReportedPlain s.2 "/bin/sh".toList ↔ PlainFile s.2 "/bin/sh".toList) := by
  have hrun : ((chrootshMain sampleBuild (fun _ _ => nul) 9 ["jk_chrootsh".toList]).drive
      (programAnswer 0o100755) isExecv (sampleStart, [])).any
        (startsWith 0o100755 "/bin/sh".toList) = true := by decide +kernel
  obtain ⟨d, s, hr, hs⟩ := reaches_of_any (programAnswer_testing 0o100755) hrun
  obtain ⟨⟨args, hd⟩, _⟩ := startsWith_execv hs
  rw [hd] at hr
  exact ⟨s, args, hr, execv_plain_iff sampleBuild (fun _ _ => nul) 9 _ (sampleStart, []) s _ args
    (Or.inl hr)⟩

/-- A shell and a procmail with the setuid bit are started. -/
theorem execv_setuid_program :
    (∃ s args, Reaches testing (chrootshMain sampleBuild (fun _ _ => nul) 9
        ["jk_chrootsh".toList]) (sampleStart, []) (.execv "/bin/sh".toList args) s ∧
      ¬ ReportedPlain s.2 "/bin/sh".toList) ∧
    ∃ s args, Reaches testing (procmailMain sampleBuild 9 ["jk_procmailwrapper".toList])
        (sampleStart, []) (.execv sampleBuild.procmailpath args) s ∧
      ¬ ReportedPlain s.2 sampleBuild.procmailpath := by
  have hnot : ∀ {s : Process × Tests} {path : Text},
      lastTest s.2 path = some (some ⟨0o104755, 0, 0⟩) → ¬ ReportedPlain s.2 path := by
    intro s path hlast h
    have hplain := (reportedPlain_iff ⟨_, hlast⟩).mp h _ hlast
    exact absurd hplain.1 (by decide)
  have hshell : ((chrootshMain sampleBuild (fun _ _ => nul) 9 ["jk_chrootsh".toList]).drive
      (programAnswer 0o104755) isExecv (sampleStart, [])).any
        (startsWith 0o104755 "/bin/sh".toList) = true := by decide +kernel
  have hprocmail : ((procmailMain sampleBuild 9 ["jk_procmailwrapper".toList]).drive
      (programAnswer 0o104755) isExecv (sampleStart, [])).any
        (startsWith 0o104755 sampleBuild.procmailpath) = true := by decide +kernel
  constructor
  · obtain ⟨d, s, hr, hs⟩ := reaches_of_any (programAnswer_testing 0o104755) hshell
    obtain ⟨⟨args, hd⟩, hlast⟩ := startsWith_execv hs
    rw [hd] at hr
    exact ⟨s, args, hr, hnot hlast⟩
  · obtain ⟨d, s, hr, hs⟩ := reaches_of_any (programAnswer_testing 0o104755) hprocmail
    obtain ⟨⟨args, hd⟩, hlast⟩ := startsWith_execv hs
    rw [hd] at hr
    exact ⟨s, args, hr, hnot hlast⟩

end Jailkit.Wrapper
