import Jailkit.Wrapper.AllowedJails

/-!
Where the wrappers start a program: its privileges are gone, and the jail that it is in is the
one of the user's home or, for jk_uchroot, the one that is asked for.
-/
namespace Jailkit.Wrapper

open Prog

/-- An entry that the run has been given for its real user. -/
def OwnAccount (pw : Passwd) (t : Trace) : Prop :=
  ∃ uid, ⟨.getuid, uid⟩ ∈ t ∧
    (⟨.getpwuid uid, some pw⟩ ∈ t ∨ pw.pw_uid = uid ∧ ∃ name, ⟨.getpwnam name, some pw⟩ ∈ t)

/-- The jail in which the home of the user is. -/
def OwnJail (jail : Text) (t : Trace) : Prop :=
  ∃ pw newhome, OwnAccount pw t ∧ getjaildir pw.pw_dir = some (jail, newhome)

/-- The jail of an option `-j`, with a slash at its end. -/
def GivenJail (jail : Text) (t : Trace) : Prop :=
  ∃ optarg, ⟨.getoptLong, .jail optarg⟩ ∈ t ∧ jail = endingSlash optarg

section

variable {t t' : Trace} {pw : Passwd} {jail : Text}

theorem ownAccount_grows (h : OwnAccount pw t) (ht : t <+: t') : OwnAccount pw t' := by
  obtain ⟨uid, huid, hpw⟩ := h
  refine ⟨uid, ht.subset huid, ?_⟩
  cases hpw with
  | inl hentry => exact Or.inl (ht.subset hentry)
  | inr hnamed =>
      obtain ⟨hsame, name, hentry⟩ := hnamed
      exact Or.inr ⟨hsame, name, ht.subset hentry⟩

theorem mem_last {c : Call} {r : Res c} : (⟨c, r⟩ : (c : Call) × Res c) ∈ t ++ [⟨c, r⟩] :=
  List.mem_append_right _ List.mem_cons_self

theorem getpw_traced {user : Option Text} (h : Returns traced (getpw user) t (some pw) t') :
    (∃ name, ⟨.getpwnam name, some pw⟩ ∈ t') ∨
      ∃ uid, ⟨.getuid, uid⟩ ∈ t' ∧ ⟨.getpwuid uid, some pw⟩ ∈ t' := by
  cases user with
  | some name =>
      have ht' : t' = t ++ [⟨.getpwnam name, some pw⟩] := returns_perform.mp h
      rw [ht']
      exact Or.inl ⟨name, mem_last⟩
  | none =>
      rw [getpw, returns_bind_iff] at h
      obtain ⟨uid, t₁, huid, h⟩ := h
      have ht₁ : t₁ = t ++ [⟨.getuid, uid⟩] := returns_perform.mp huid
      have ht' : t' = t₁ ++ [⟨.getpwuid uid, some pw⟩] := returns_perform.mp h
      rw [ht', ht₁]
      exact Or.inr ⟨uid, List.mem_append_left _ mem_last, mem_last⟩

theorem userInfo_traced {user : Option Text} {gr_name : Text}
    (h : Returns traced userInfo t (user, pw, gr_name) t') : OwnAccount pw t' := by
  rw [userInfo, returns_bind_iff] at h
  obtain ⟨name, t₁, -, h⟩ := h
  rw [returns_bind_iff] at h
  obtain ⟨found, t₂, hfound, h⟩ := h
  cases found with
  | none => exact absurd h not_returns_exit
  | some entry =>
      rw [returns_bind_iff] at h
      obtain ⟨_, t₃, hname, h⟩ := h
      obtain ⟨-, rfl⟩ := returns_exitIf hname
      rw [returns_bind_iff] at h
      obtain ⟨_, t₄, huser, h⟩ := h
      obtain ⟨-, rfl⟩ := returns_exitIf huser
      rw [returns_bind_iff] at h
      obtain ⟨uid, t₅, huid, h⟩ := h
      have ht₅ : t₅ = t₄ ++ [⟨.getuid, uid⟩] := returns_perform.mp huid
      rw [returns_bind_iff] at h
      obtain ⟨_, t₆, hexit, h⟩ := h
      obtain ⟨hsame, rfl⟩ := returns_exitIf hexit
      rw [returns_bind_iff] at h
      obtain ⟨gid, t₇, hgid, h⟩ := h
      rw [returns_bind_iff] at h
      obtain ⟨gr, t₈, hgr, h⟩ := h
      cases gr with
      | none => exact absurd h not_returns_exit
      | some gr =>
          obtain ⟨heq, rfl⟩ := returns_pure.mp h
          cases heq
          have hgrown : t₆ <+: t' := (trace_grows hgid).trans (trace_grows hgr)
          refine ownAccount_grows ?_ hgrown
          rw [ht₅]
          cases getpw_traced hfound with
          | inl hnamed =>
              obtain ⟨name, hname⟩ := hnamed
              exact ⟨uid, mem_last, Or.inr
                ⟨not_not.mp hsame, name, List.mem_append_left _ hname⟩⟩
          | inr hnumbered =>
              obtain ⟨uid', huid', hentry⟩ := hnumbered
              exact ⟨uid', List.mem_append_left _ huid',
                Or.inl (List.mem_append_left _ hentry)⟩

theorem findJail_gives (pw : Passwd) :
    (findJail pw).Gives fun found => getjaildir pw.pw_dir = some found := by
  refine gives_bind fun gid => gives_bind fun _ => gives_bind fun _ => gives_bind fun _ => ?_
  split
  next => exact fun r => r.elim
  next hsplit =>
    refine gives_bind fun r => gives_bind fun _ => gives_bind fun test => ?_
    cases test with
    | none => exact fun r => r.elim
    | some test => exact gives_bind fun _ => hsplit

theorem not_mild_chroot : ¬ Mild (.chroot jail) := by
  intro hmild
  cases hmild with
  | inl hharmless => exact hharmless
  | inr hexecv =>
      obtain ⟨path, args, hexecv⟩ := hexecv
      cases hexecv

theorem chrootshMain_enters (b : Build) (memory : Memory) (fuel : Nat) (argv : List Text)
    (h : Reaches traced (chrootshMain b memory fuel argv) [] (.chroot jail) t) :
    OwnJail jail t := by
  have hnot : ¬ Harmless (.chroot jail) := id
  have hno : ¬ Quiet (.chroot jail) := fun hq => (hq jail).1 rfl
  obtain ⟨_, t₁, -, h⟩ := reaches_past (only_exitIf trivial) hnot h
  obtain ⟨useCapabilities, t₂, -, h⟩ := reaches_past (setuidCheck_harmless b) hnot h
  obtain ⟨⟨user, pw, gr_name⟩, t₃, huser, h⟩ := reaches_past userInfo_harmless hnot h
  obtain ⟨gids, t₄, hgids, h⟩ := reaches_past (only_call trivial) hnot h
  cases gids with
  | none => exact absurd h (not_reaches_of_only (only_exit trivial) hnot)
  | some gids =>
      obtain ⟨o, t₅, hread, h⟩ :=
        reaches_past (readChrootshOptions_harmless b memory pw gr_name) hnot h
      obtain ⟨_, t₆, hclosed, h⟩ := reaches_past (closeDescriptors_harmless fuel) hnot h
      obtain ⟨_, t₇, hunset, h⟩ := reaches_past (unsetEnvironExcept_harmless _ fuel) hnot h
      obtain ⟨⟨jaildir, newhome⟩, t₈, hfound, h⟩ := reaches_past (findJail_harmless pw) hnot h
      obtain ⟨_, t₉, hchecked, h⟩ := reaches_past (checkHome_harmless o pw jaildir) hnot h
      cases reaches_bind_cases h with
      | inl h =>
          obtain ⟨hjail, rfl⟩ := reaches_perform.mp h
          obtain rfl : jail = jaildir := Call.chroot.inj hjail
          have hread' : t₃ <+: t₅ := (trace_grows hgids).trans (trace_grows hread)
          have hunset' : t₅ <+: t₇ := (trace_grows hclosed).trans (trace_grows hunset)
          have hfound' : t₇ <+: t := (trace_grows hfound).trans (trace_grows hchecked)
          have hsplit := gives_of_returns (findJail_gives pw) hfound
          exact ⟨pw, newhome, ownAccount_grows (userInfo_traced huser)
            ((hread'.trans hunset').trans hfound'), hsplit⟩
      | inr h =>
          obtain ⟨r, t₁₀, -, h⟩ := h
          obtain ⟨_, t₁₁, -, h⟩ := reaches_past (only_exitIf trivial) hnot h
          obtain ⟨_, t₁₂, -, h⟩ := reaches_past (dropPrivileges_quiet b _ _) hno h
          exact absurd h (not_reaches_of_only (insideJail_mild _ _ _ _ _ _) not_mild_chroot)

theorem procmailJail_gives (pw : Passwd) :
    (procmailJail pw).Gives fun found => getjaildir pw.pw_dir = some found.2 := by
  refine gives_bind fun gid => gives_bind fun gr => ?_
  cases gr with
  | none => exact fun r => r.elim
  | some gr =>
      refine gives_bind fun _ => gives_bind fun _ => gives_bind fun _ => gives_bind fun _ => ?_
      split
      next => exact fun r => r.elim
      next hsplit =>
        refine gives_bind fun r => gives_bind fun _ => gives_bind fun test => ?_
        cases test with
        | none => exact fun r => r.elim
        | some test =>
            refine gives_bind fun _ => gives_bind fun _ => gives_bind fun _ => ?_
            refine gives_bind fun _ => gives_bind fun _ => gives_bind fun _ => ?_
            exact gives_bind fun _ => gives_bind fun _ => hsplit

theorem procmailMain_enters (b : Build) (fuel : Nat) (argv : List Text)
    (h : Reaches traced (procmailMain b fuel argv) [] (.chroot jail) t) : OwnJail jail t := by
  have hnot : ¬ Harmless (.chroot jail) := id
  have hno : ¬ Quiet (.chroot jail) := fun hq => (hq jail).1 rfl
  obtain ⟨uid, t₁, huid, h⟩ := reaches_past (only_call trivial) hnot h
  have ht₁ : t₁ = [⟨.getuid, uid⟩] := returns_perform.mp huid
  obtain ⟨found, t₂, hfound, h⟩ := reaches_past (only_call trivial) hnot h
  have ht₂ : t₂ = t₁ ++ [⟨.getpwuid uid, found⟩] := returns_perform.mp hfound
  cases found with
  | none =>
      cases h with
      | @later _ _ _ r _ _ _ _ _ => exact r.elim
  | some pw =>
      have hown : OwnAccount pw t₂ := by
        rw [ht₂, ht₁]
        exact ⟨uid, List.mem_cons_self, Or.inl mem_last⟩
      dsimp only at h
      split at h
      · exact absurd h (not_reaches_of_only (runUnjailed_quiet b pw argv) hno)
      · obtain ⟨_, t₃, hname, h⟩ := reaches_past (only_exitIf trivial) hnot h
        obtain ⟨limit, t₄, hlimit, h⟩ := reaches_past (only_call trivial) hnot h
        obtain ⟨_, t₅, hclosed, h⟩ := reaches_past (closeDownTo_harmless fuel limit) hnot h
        obtain ⟨_, t₆, hsetuid, h⟩ := reaches_past requireSetuidRoot_harmless hnot h
        obtain ⟨⟨gr_name, jaildir, newhome⟩, t₇, hfound, h⟩ :=
          reaches_past (procmailJail_harmless pw) hnot h
        cases reaches_bind_cases h with
        | inl h =>
            obtain ⟨hjail, rfl⟩ := reaches_perform.mp h
            obtain rfl : jail = jaildir := Call.chroot.inj hjail
            have hsplit := gives_of_returns (procmailJail_gives pw) hfound
            have hlimit' : t₂ <+: t₄ := (trace_grows hname).trans (trace_grows hlimit)
            have hsetuid' : t₄ <+: t₆ := (trace_grows hclosed).trans (trace_grows hsetuid)
            exact ⟨pw, newhome, ownAccount_grows hown
              ((hlimit'.trans hsetuid').trans (trace_grows hfound)), hsplit⟩
        | inr h =>
            obtain ⟨r, t₈, -, h⟩ := h
            obtain ⟨_, t₉, -, h⟩ := reaches_past (only_exitIf trivial) hnot h
            obtain ⟨_, t₁₀, -, h⟩ := reaches_past (dropToUser_quiet pw) hno h
            obtain ⟨_, t₁₁, -, h⟩ := reaches_past (injailPasswd_harmless pw _ _) hnot h
            exact absurd h (not_reaches_of_only (startProcmail_mild b _ _ _) not_mild_chroot)

theorem given_of_getoptLoop {fuel : Nat} {jail₀ executable executable' : Option Text}
    (hjail : ∀ j ∈ jail₀, GivenJail j t)
    (h : Returns traced (getoptLoop jail₀ executable fuel) t (some jail, executable') t') :
    GivenJail jail t' := by
  induction fuel generalizing jail₀ executable t with
  | zero =>
      cases h with
      | @call _ _ _ r _ _ _ _ _ => exact r.elim
  | succ fuel ih =>
      rw [getoptLoop, returns_bind_iff] at h
      obtain ⟨opt, t₁, hopt, h⟩ := h
      have ht₁ : t₁ = t ++ [⟨.getoptLong, opt⟩] := returns_perform.mp hopt
      have hold : ∀ j ∈ jail₀, GivenJail j t₁ := by
        intro j hj
        obtain ⟨optarg, hmem, heq⟩ := hjail j hj
        rw [ht₁]
        exact ⟨optarg, List.mem_append_left _ hmem, heq⟩
      cases opt with
      | jail optarg =>
          refine ih (fun j hj => ?_) h
          cases hj
          rw [ht₁]
          exact ⟨optarg, mem_last, rfl⟩
      | executable optarg => exact ih hold h
      | help | version => exact absurd h not_returns_exit
      | other => exact ih hold h
      | done =>
          obtain ⟨heq, rfl⟩ := returns_pure.mp h
          exact hold jail (congrArg Prod.fst heq).symm

theorem given_of_uchrootArgs {fuel : Nat} {args : UchrootArgs}
    (h : Returns traced (uchrootArgs fuel) t args t') : GivenJail args.jail t' := by
  obtain ⟨executable, t₁, rest, hopts, hrest⟩ := uchrootArgs_returns h
  obtain ⟨optarg, hmem, hslash⟩ := given_of_getoptLoop (by simp) hopts
  exact ⟨optarg, (trace_grows hrest).subset hmem, hslash⟩

end

/-- Whatever the calls answer: where a wrapper starts the jailed program, it is inside a
`chroot` and its privileges are gone; and no wrapper calls `chroot` for another directory than
the jail of the user's home or, in jk_uchroot, the one asked for. -/
theorem execv_unprivileged (b : Build) (memory : Memory) (fuel : Nat) (argv : List Text)
    (s₀ s : Process) (path : Text) (args : List Text) :
    (Reaches kernel (chrootshMain b memory fuel argv) s₀ (.execv path args) s →
      Dropped s₀ s) ∧
    (Reaches kernel (uchrootMain b memory fuel argv) s₀ (.execv path args) s →
      Dropped s₀ s) ∧
    (Reaches kernel (procmailMain b fuel argv) s₀ (.execv path args) s →
      BecameUser s₀ s) ∧
    ∀ jail t,
      (Reaches traced (chrootshMain b memory fuel argv) [] (.chroot jail) t → OwnJail jail t) ∧
      (Reaches traced (uchrootMain b memory fuel argv) [] (.chroot jail) t → GivenJail jail t) ∧
      (Reaches traced (procmailMain b fuel argv) [] (.chroot jail) t → OwnJail jail t) := by
  refine ⟨fun h => ?_, fun h => ?_, fun h => ?_, fun jail t => ⟨fun h => ?_, fun h => ?_,
    fun h => ?_⟩⟩
  · exact guard_of_reaches (chrootshMain_dropped b memory fuel argv s₀) h path args rfl
  · exact guard_of_reaches (uchrootMain_dropped b memory fuel argv s₀) h path args rfl
  · exact guard_of_reaches (procmailMain_dropped b fuel argv s₀) h path args rfl
  · exact chrootshMain_enters b memory fuel argv h
  · obtain ⟨-, t₁, opts, t₂, hargs, hjail, hgrown⟩ := uchrootMain_enters b memory fuel argv h
    obtain ⟨optarg, hmem, hslash⟩ := given_of_uchrootArgs hargs
    exact ⟨optarg, hgrown.subset hmem, hjail ▸ hslash⟩
  · exact procmailMain_enters b fuel argv h

/-- The capability mode: not root, but with the right to `chroot`. -/
def capStart : Process :=
  { sampleStart with
    euid := 1000
    caps := ⟨[CAP_SYS_CHROOT], [CAP_SYS_CHROOT], [CAP_SYS_CHROOT]⟩ }

def capBuild : Build := { sampleBuild with haveCapGetProc := true }

/-- A run of jk_uchroot in the capability mode, with the number of options that it has read. -/
def capAnswer (x : Process × Nat) : (c : Call) → Option (Res c × Process × Nat)
  | .getoptLong =>
      let given := [Opt.jail "/jail".toList, .executable "/bin/sh".toList]
      some (given.getD x.2 .done, x.1, x.2 + 1)
  | .newIniparser _ => some (some "[DEFAULT]\nallowed_jails = /srv/, /jail\n".toList, x)
  | .capGetProc => some (some x.1.caps, x)
  | .capGetFlag _ => some (true, x)
  | .capClearFlag caps set => some (some (caps.clear set), x)
  | .capSetProc caps => some (true, { x.1 with caps := caps }.did .setCaps, x.2)
  | c => (sampleAnswer x.1 c).map fun a => (a.1, a.2, x.2)

theorem capAnswer_kernel (x : Process × Nat) (c : Call) (r : Res c) (x' : Process × Nat)
    (h : capAnswer x c = some (r, x')) : kernel x.1 c r x'.1 := by
  cases c with
  | getoptLong | newIniparser _ | capGetFlag _ =>
      cases h
      exact rfl
  | capGetProc =>
      cases h
      exact ⟨by simp, rfl⟩
  | capClearFlag caps set =>
      cases h
      exact ⟨by simp, rfl⟩
  | capSetProc caps =>
      cases h
      exact rfl
  | _ =>
      simp only [capAnswer, Option.map_eq_some_iff] at h
      obtain ⟨a, ha, heq⟩ := h
      cases heq
      exact sampleAnswer_kernel _ _ _ _ ha

def capEnd : Process :=
  { capStart.did (.chroot "/jail/".toList) with caps := ⟨[], [], []⟩ }.did .setCaps

/-- The three programs in runs that come to `execv`, jk_uchroot in the capability mode. -/
theorem execv_unprivileged_sample :
    (Reaches kernel (chrootshMain sampleBuild (fun _ _ => nul) 9 ["jk_chrootsh".toList])
        sampleStart (.execv "/bin/sh".toList ["/bin/sh".toList]) sampleEnd ∧
      Dropped sampleStart sampleEnd) ∧
    (Reaches kernel (uchrootMain capBuild (fun _ _ => nul) 9 ["jk_uchroot".toList])
        capStart (.execv "/bin/sh".toList ["/bin/sh".toList]) capEnd ∧
      Dropped capStart capEnd) ∧
    (Reaches kernel (procmailMain sampleBuild 9 ["jk_procmailwrapper".toList])
        sampleStart (.execv "/usr/bin/procmail".toList ["/usr/bin/procmail".toList]) sampleEnd ∧
      BecameUser sampleStart sampleEnd) ∧
    ∃ t, Reaches traced (uchrootMain sampleBuild (fun _ _ => nul) 9 ["jk_uchroot".toList]) []
        (.chroot "/jail/".toList) t ∧ GivenJail "/jail/".toList t := by
  have hshell : (chrootshMain sampleBuild (fun _ _ => nul) 9 ["jk_chrootsh".toList]).drive
      sampleAnswer isExecv sampleStart =
        some (.execv "/bin/sh".toList ["/bin/sh".toList], sampleEnd) := by decide +kernel
  have huchroot : (uchrootMain capBuild (fun _ _ => nul) 9 ["jk_uchroot".toList]).drive
      capAnswer isExecv (capStart, 0) =
        some (.execv "/bin/sh".toList ["/bin/sh".toList], capEnd, 3) := by decide +kernel
  have hprocmail : (procmailMain sampleBuild 9 ["jk_procmailwrapper".toList]).drive
      sampleAnswer isExecv sampleStart =
        some (.execv "/usr/bin/procmail".toList ["/usr/bin/procmail".toList], sampleEnd) := by
    decide +kernel
  have hjail : ((uchrootMain sampleBuild (fun _ _ => nul) 9 ["jk_uchroot".toList]).drive
      uchrootAnswer (fun c => c == .chroot "/jail/".toList) []).any
        (fun d => d.1 == .chroot "/jail/".toList) = true := by decide +kernel
  have hshell := reaches_of_drive sampleAnswer_kernel hshell
  have huchroot := reaches_map capAnswer_kernel (reaches_of_drive (fun _ _ _ _ h => h) huchroot)
  have hprocmail := reaches_of_drive sampleAnswer_kernel hprocmail
  obtain ⟨d, t, hchroot, hd⟩ := reaches_of_any uchrootAnswer_traced hjail
  have hd : d = .chroot "/jail/".toList := beq_iff_eq.mp hd
  rw [hd] at hchroot
  refine ⟨⟨hshell, ?_⟩, ⟨huchroot, ?_⟩, ⟨hprocmail, ?_⟩, t, hchroot, ?_⟩
  · exact (execv_unprivileged _ _ _ _ _ _ _ _).1 hshell
  · exact (execv_unprivileged _ _ _ _ _ _ _ _).2.1 huchroot
  · exact (execv_unprivileged _ (fun _ _ => nul) _ _ _ _ _ _).2.2.1 hprocmail
  · exact ((execv_unprivileged _ _ _ _ sampleStart sampleEnd [] []).2.2.2 _ _).2.1 hchroot

end Jailkit.Wrapper
