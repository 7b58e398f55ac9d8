import Jailkit.Lsh.Settings
import Jailkit.Wrapper.AllowedJails
import Jailkit.Wrapper.Login

/-!
From the login to the command: jk_chrootsh starts jk_lsh in the jail and hands its arguments
on, and jk_lsh goes on in the state in which it has been started.
-/
namespace Jailkit.Lsh

open Prog Wrapper
open JkLib (PyFile)
open Tools (Databases JailPath Name Account Agrees)
open PasswdParser (bob bobAccount bobDatabases rootOnly)

/-- The system of a login, with what jk_lsh asks of it: the environment keeps what has been put
into it, an entry has the name that it has been asked for, and in the jail the configuration
of jk_lsh is this one, if it can be read. -/
def answersLsh (L : Login) (b : Build) (config : Ini.Config) (s : Session) :
    (c : Call) → Res c → Prop
  | .getenv name, r => name = "USER".toList → s.user.isSome → r = s.user
  | .getpwnam name, r => ∀ pw, r = some pw → pw.pw_name = name
  | .newIniparser filename, r =>
      filename = b.iniprefix ++ "/jk_lsh.ini".toList → s.root = some L.jaildir →
        ∀ file, r = some file → file = config.render
  | _, _ => True

def host (L : Login) (b : Build) (config : Ini.Config) : Machine Call Res Session :=
  fun s c r s' => L.machine s c r s' ∧ answersLsh L b config s c r

/-- In the jail and in the home, and what the configuration has for the user and the command. -/
def Granted (L : Login) (config : Ini.Config) (newhome command : Text) (s : Session) (word : Text)
    (argv : List Text) : Prop :=
  s.root = some L.jaildir ∧ s.cwd = some newhome ∧
    ∃ gr_name p, config.select (cText L.real.pw_name) gr_name = some p ∧
      (settings p).Starts command word argv

/-- Calls that change neither the root nor the current directory. -/
def Stationary : Call → Prop
  | .chroot _ | .chdir _ => False
  | _ => True

section

variable {memory : Memory} {file : Text} {sec : CString} {position : Int}

theorem resolve_stationary (newargv : Option (List Text)) :
    (resolve memory file sec position newargv).Only Stationary := by
  unfold resolve
  split
  · exact only_bind (expandExecutable_only (fun _ => trivial) _ _) fun _ => trivial
  · exact ⟨trivial, fun r => r.elim⟩

theorem runAllowed_stationary (newargv : List Text) :
    (runAllowed memory file sec position newargv).Only Stationary := by
  refine only_bind (executableIsAllowed_only trivial _ _ _ _ _) fun b => ?_
  split
  · exact only_call trivial
  · exact only_exit trivial

theorem lshRun_stationary (user group command : Text) :
    (lshRun memory file user group command).Only Stationary := by
  rw [lshRun]
  split
  · exact only_exit trivial
  next sec unread _ =>
    refine only_bind ?_ fun newargv => runAllowed_stationary newargv
    refine only_bind (setUmask_only fun _ => trivial) fun _ => ?_
    refine only_bind (setEnvironment_only (fun _ _ => trivial) _) fun _ => ?_
    exact only_bind (splitCommand_only trivial) fun newargv => resolve_stationary newargv

end

theorem after_stationary (s : Session) {c : Call} (r : Res c) (hc : Stationary c) :
    (s.after c r).root = s.root ∧ (s.after c r).cwd = s.cwd := by
  cases c with
  | chroot path => exact hc.elim
  | chdir path => exact hc.elim
  | setenv name value =>
      simp only [Session.after]
      split <;> [exact ⟨rfl, rfl⟩; split <;> exact ⟨rfl, rfl⟩]
  | unsetenv name =>
      simp only [Session.after]
      split <;> [exact ⟨rfl, rfl⟩; split <;> exact ⟨rfl, rfl⟩]
  | _ => exact ⟨rfl, rfl⟩

section

variable {L : Login} {b : Build} {config : Ini.Config} {memory : Memory} {s s' : Session}
  {args argv : List Text} {word : Text}

/-- jk_lsh looks up the user of the login, whose name is in the environment. -/
theorem lshMain_user (hname : L.real.pw_name ≠ []) (hroot : s.root = some L.jaildir)
    (huser : s.user = some L.real.pw_name)
    (h : Reaches (host L b config) (lshMain b memory args) s (.execve word argv) s') :
    3 ≤ args.length ∧ ∃ gr_name, Reaches anyAnswer
      (lshRun memory config.render L.real.pw_name gr_name (args.getLastD [])) ()
      (.execve word argv) () := by
  have hnot : ¬ (Call.execve word argv ≠ .execve word argv) := not_not_intro rfl
  obtain ⟨name, s₁, hask, h⟩ := reaches_past (only_call (by simp)) hnot h
  have hask := returns_perform.mp hask
  have hname' : name = some L.real.pw_name := (hask.2 rfl (by rw [huser]; rfl)).trans huser
  have hs₁ : s₁ = s := hask.1.2
  subst hs₁ hname'
  have hfilter : (some L.real.pw_name).filter (fun u => !u.isEmpty) = some L.real.pw_name := by
    simpa using hname
  rw [hfilter] at h
  obtain ⟨r, s₂, hlook, h⟩ := reaches_past (only_call (by simp)) hnot h
  have hlook := returns_perform.mp hlook
  have hs₂ : s₂ = s₁ := hlook.1.2
  subst hs₂
  cases r with
  | none => exact absurd h (not_reaches_of_only (only_exit (by simp)) hnot)
  | some pw =>
      have hpw : pw.pw_name = L.real.pw_name := hlook.2 pw rfl
      obtain ⟨uid, s₃, huid, h⟩ := reaches_past (only_call (by simp)) hnot h
      obtain ⟨_, s₄, hsame, h⟩ := reaches_past (only_exitIf (by simp)) hnot h
      obtain ⟨gid, s₅, hgid, h⟩ := reaches_past (only_call (by simp)) hnot h
      obtain ⟨gr, s₆, hgr, h⟩ := reaches_past (only_call (by simp)) hnot h
      cases gr with
      | none => exact absurd h (not_reaches_of_only (only_exit (by simp)) hnot)
      | some gr_name =>
          obtain ⟨_, s₇, hgroup, h⟩ := reaches_past (only_exitIf (by simp)) hnot h
          obtain ⟨_, s₈, hargs, h⟩ := reaches_past (only_exitIf (by simp)) hnot h
          obtain ⟨file, s₉, hfile, h⟩ := reaches_past (only_call (by simp)) hnot h
          cases file with
          | none => exact absurd h (not_reaches_of_only (only_exit (by simp)) hnot)
          | some file =>
              have hs₈ : s₈ = s₂ := by
                rw [(returns_exitIf hargs).2, (returns_exitIf hgroup).2,
                  (returns_perform.mp hgr).1.2, (returns_perform.mp hgid).1.2,
                  (returns_exitIf hsame).2, (returns_perform.mp huid).1.2]
                rfl
              have hconfig : file = config.render :=
                (returns_perform.mp hfile).2 rfl (hs₈ ▸ hroot) file rfl
              have hlen : 3 ≤ args.length := by
                by_contra hshort
                exact (returns_exitIf hargs).1 (Or.inl (Nat.not_le.mp hshort))
              refine ⟨hlen, gr_name, ?_⟩
              rw [← hconfig, ← hpw]
              exact reaches_anyAnswer h

theorem lshMain_stationary : (lshMain b memory args).Only Stationary := by
  refine only_bind (only_call trivial) fun name => ?_
  refine only_bind ?_ fun r => ?_
  · unfold getpw
    split
    · exact only_call trivial
    · exact only_bind (only_call trivial) fun _ => only_call trivial
  · cases r with
    | none => exact only_exit trivial
    | some pw =>
        refine only_bind (only_call trivial) fun uid => ?_
        refine only_bind (only_exitIf trivial) fun _ => ?_
        refine only_bind (only_call trivial) fun gid => ?_
        refine only_bind (only_call trivial) fun gr => ?_
        cases gr with
        | none => exact only_exit trivial
        | some gr_name =>
            refine only_bind (only_exitIf trivial) fun _ => ?_
            refine only_bind (only_exitIf trivial) fun _ => ?_
            refine only_bind (only_call trivial) fun file => ?_
            cases file with
            | none => exact only_exit trivial
            | some file => exact lshRun_stationary _ _ _

theorem lshMain_keeps {c : Call} (h : Reaches (host L b config) (lshMain b memory args) s c s') :
    s'.root = s.root ∧ s'.cwd = s.cwd := by
  have hkeep : (lshMain b memory args).Always (host L b config)
      (fun s₁ _ => s₁.root = s.root ∧ s₁.cwd = s.cwd) (fun _ _ => True) s := by
    refine always_mono (always_of_only lshMain_stationary (fun s₁ c r s₂ hc hs hstep => ?_)
      (fun _ _ _ hs => hs) ⟨rfl, rfl⟩) fun _ _ _ => trivial
    have hafter := after_stationary s₁ r hc
    rw [hstep.1.2]
    exact ⟨hafter.1.trans hs.1, hafter.2.trans hs.2⟩
  exact guard_of_reaches (G := fun s₁ _ => s₁.root = s.root ∧ s₁.cwd = s.cwd) hkeep h

end

/-- A user whom jk_jailuser has put into a jail, and whose shell is jk_lsh: whatever the login
asks for and whatever the calls answer, what jk_lsh starts is started in the jail and in the
home, and its configuration has it for that user and for the last argument of the login. -/
theorem login_granted (L : Login) (db : Databases) (file : PyFile) (jail : JailPath) (user : Name)
    (shell : Text) (pw : Account) (b : Build) (memory : Memory) (fuel : Nat) (argv : List Text)
    (config : Ini.Config) (hmade : L.Made db file jail user shell pw)
    (hagree : L.HomesAgree jail pw) (hsize : config.render.length < 2 ^ 31) :
    ∃ newhome, getjaildir L.real.pw_dir = some (L.jaildir, newhome) ∧
      ∀ s path args s₁ word words s', s.root = none →
        Reaches (host L b config) (chrootshMain b memory fuel argv) s (.execv path args) s₁ →
        Reaches (host L b config) (lshMain b memory args) s₁ (.execve word words) s' →
        Granted L config newhome (argv.getLastD []) s' word words := by
  obtain ⟨newhome, hsplits⟩ := hmade.splits hagree
  refine ⟨newhome, hsplits.found, fun s path args s₁ word words s' hs hshell hcommand => ?_⟩
  have hright : (chrootshMain b memory fuel argv).Always (host L b config)
      (L.Right memory newhome shell argv.tail) (fun _ _ => True) s :=
    always_of_more (fun _ _ _ _ h => h.1)
      (chrootshMain_right b fuel argv hmade hsplits hs)
  obtain ⟨hargs, hs₁, -⟩ := (guard_of_reaches hright hshell).2 path args rfl
  obtain ⟨hroot, hcwd⟩ := lshMain_keeps hcommand
  have hname : L.real.pw_name ≠ [] := by
    rw [hmade.name]
    exact user.nonempty
  obtain ⟨hlen, gr_name, hreach⟩ := lshMain_user hname (by rw [hs₁]) (by rw [hs₁]) hcommand
  obtain ⟨p, hselect, hstarts⟩ := (execve_config hsize).mp hreach
  have hlast : args.getLastD [] = argv.getLastD [] := by
    rw [hargs] at hlen ⊢
    cases argv with
    | nil => simp at hlen
    | cons first rest =>
        cases rest with
        | nil => simp at hlen
        | cons second rest => rfl
  rw [hlast] at hstarts
  exact ⟨by rw [hroot, hs₁], by rw [hcwd, hs₁], _, p, hselect, hstarts⟩

theorem bobName_plain : ∀ c ∈ "bob".toList, c ≠ '[' ∧ c ≠ ']' ∧ c ≠ '\n' ∧ c ≠ nul :=
  Ini.forall_of_all (by decide)

def bobSection : Ini.Section where
  name := "bob".toList
  entries := [Ini.executables]
  nameNonempty := bob.nonempty
  nameFits := by decide
  namePlain := bobName_plain

def bobConfig : Ini.Config := ⟨[bobSection], by decide⟩

def bobCommandResult (s : Session) : (c : Call) → Option (Res c)
  | .getenv _ => some s.user
  | .getpwnam name => if name = "bob".toList then some (some bobLogin.real) else none
  | .newIniparser _ => some (if s.root = none then none else some bobConfig.render)
  | c => bobResult c

def bobCommandAnswer (s : Session) (c : Call) : Option (Res c × Session) :=
  (bobCommandResult s c).map fun r => (r, s.after c r)

theorem bobCommandAnswer_host (s : Session) (c : Call) (r : Res c) (s' : Session)
    (h : bobCommandAnswer s c = some (r, s')) :
    host bobLogin sampleBuild bobConfig s c r s' := by
  obtain ⟨a, ha, heq⟩ := Option.map_eq_some_iff.mp h
  cases heq
  cases c with
  | getenv name => exact ⟨⟨trivial, rfl⟩, fun _ _ => (Option.some.inj ha).symm⟩
  | getpwnam name =>
      simp only [bobCommandResult] at ha
      split at ha
      next hname =>
        cases ha
        refine ⟨⟨fun pw hpw _ => Or.inl (Option.some.inj hpw).symm, rfl⟩, fun pw hpw => ?_⟩
        cases hpw
        exact hname.symm
      next => cases ha
  | newIniparser filename =>
      have ha := Option.some.inj ha
      refine ⟨⟨fun hroot => ?_, rfl⟩, fun _ hroot file hfile => ?_⟩
      · rw [← ha, if_pos hroot]
        rfl
      · rw [← ha, hroot] at hfile
        exact (Option.some.inj hfile).symm
  | _ => exact ⟨⟨bobResult_answers s _ _ ha, rfl⟩, trivial⟩

def isExecve : Call → Bool
  | .execve _ _ => true
  | _ => false

def bobArgs : List Text := ["-c".toList, "/bin/ls -l".toList]

theorem login_granted_bob :
    ∃ s₁ s', Reaches (host bobLogin sampleBuild bobConfig)
        (chrootshMain sampleBuild (fun _ _ => nul) 9 ("jk_chrootsh".toList :: bobArgs))
        ⟨none, none, none, none⟩
        (.execv "/usr/sbin/jk_lsh".toList ("/usr/sbin/jk_lsh".toList :: bobArgs)) s₁ ∧
      Reaches (host bobLogin sampleBuild bobConfig)
        (lshMain sampleBuild (fun _ _ => nul) ("/usr/sbin/jk_lsh".toList :: bobArgs)) s₁
        (.execve "/bin/ls".toList ["/bin/ls".toList, "-l".toList]) s' ∧
      Granted bobLogin bobConfig "/home/bob".toList "/bin/ls -l".toList s' "/bin/ls".toList
        ["/bin/ls".toList, "-l".toList] := by
  obtain ⟨newhome, hsplit, hgranted⟩ := login_granted bobLogin bobDatabases rootOnly
    ⟨"/srv/jail/".toList, rfl, rfl⟩ bob "/usr/sbin/jk_lsh".toList bobAccount sampleBuild
    (fun _ _ => nul) 9 ("jk_chrootsh".toList :: bobArgs) bobConfig bobLogin_made bobLogin_agree
    (by decide +kernel)
  have hnew : getjaildir bobLogin.real.pw_dir = some ("/srv/jail".toList, "/home/bob".toList) := by
    decide +kernel
  cases hsplit.symm.trans hnew
  have hshell : ((chrootshMain sampleBuild (fun _ _ => nul) 9 ("jk_chrootsh".toList :: bobArgs)).drive
      bobCommandAnswer isExecv ⟨none, none, none, none⟩).any (fun d => decide (
        d.1 = .execv "/usr/sbin/jk_lsh".toList ("/usr/sbin/jk_lsh".toList :: bobArgs) ∧
          d.2 = ⟨some "/srv/jail".toList, some "/home/bob".toList, some "/home/bob".toList,
            some "bob".toList⟩)) = true := by
    decide +kernel
  obtain ⟨d, s₁, hshell, hd⟩ := reaches_of_any bobCommandAnswer_host hshell
  obtain ⟨hd, hs₁⟩ := of_decide_eq_true hd
  have hd : d = _ := hd
  have hs₁ : s₁ = _ := hs₁
  subst hd hs₁
  have hcommand : ((lshMain sampleBuild (fun _ _ => nul)
      ("/usr/sbin/jk_lsh".toList :: bobArgs)).drive bobCommandAnswer isExecve
        ⟨some "/srv/jail".toList, some "/home/bob".toList, some "/home/bob".toList,
          some "bob".toList⟩).any (fun d => decide (
            d.1 = .execve "/bin/ls".toList ["/bin/ls".toList, "-l".toList])) = true := by
    decide +kernel
  obtain ⟨d, s', hcommand, hd⟩ := reaches_of_any bobCommandAnswer_host hcommand
  have hd : d = .execve _ _ := of_decide_eq_true hd
  subst hd
  exact ⟨_, s', hshell, hcommand, hgranted _ _ _ _ _ _ _ rfl hshell hcommand⟩

end Jailkit.Lsh
