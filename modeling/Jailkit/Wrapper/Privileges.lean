import Jailkit.Wrapper.Uchroot
import Jailkit.Wrapper.ProcmailWrapper

/-!
The credentials of a process, and what is left of them when the jailed program starts.
Any call may fail at any time; a call that succeeds does what its manual says.
-/
namespace Jailkit.Wrapper

open Prog

/-- What a process has done with its privileges. -/
inductive Deed where
  | chroot (path : Text)
  | setgid (gid : Nat)
  | setuid (uid : Nat)
  | setCaps
  deriving DecidableEq, Repr

structure Process where
  ruid : Nat
  euid : Nat
  suid : Nat
  rgid : Nat
  egid : Nat
  sgid : Nat
  caps : Caps
  deeds : List Deed
  deriving DecidableEq, Repr

def Process.did (s : Process) (d : Deed) : Process := { s with deeds := s.deeds ++ [d] }

/-- `setuid` sets all three ids for an effective user 0, else the effective one. -/
def Process.setuid (s : Process) (u : Nat) : Process :=
  if s.euid = 0 then { s with ruid := u, euid := u, suid := u }.did (.setuid u)
  else { s with euid := u }.did (.setuid u)

def Process.setgid (s : Process) (g : Nat) : Process :=
  if s.euid = 0 then { s with rgid := g, egid := g, sgid := g }.did (.setgid g)
  else { s with egid := g }.did (.setgid g)

def Caps.clear (caps : Caps) : CapSet → Caps
  | .permitted => { caps with permitted := caps.permitted.filter (· ≠ CAP_SYS_CHROOT) }
  | .effective => { caps with effective := caps.effective.filter (· ≠ CAP_SYS_CHROOT) }
  | .inheritable =>
      { caps with inheritable := caps.inheritable.filter (· ≠ CAP_SYS_CHROOT) }

/-- The machine that runs the wrappers: results not determined here are arbitrary. -/
def kernel : Machine Call Res Process
  | s, .geteuid, r, s' => r = s.euid ∧ s' = s
  | s, .getuid, r, s' => r = s.ruid ∧ s' = s
  | s, .getgid, r, s' => r = s.rgid ∧ s' = s
  | s, .chroot path, r, s' => s' = if r then s.did (.chroot path) else s
  | s, .setgid g, r, s' => s' = if r then s.setgid g else s
  | s, .setuid u, r, s' => s' = if r then s.setuid u else s
  | s, .capGetProc, r, s' => (∀ caps ∈ r, caps = s.caps) ∧ s' = s
  | s, .capClearFlag caps set, r, s' => (∀ caps' ∈ r, caps' = caps.clear set) ∧ s' = s
  | s, .capSetProc caps, r, s' => s' = if r then { s with caps := caps }.did .setCaps else s
  | s, _, _, s' => s' = s

/-- No program starts in this call, and the process keeps its privileges in it. -/
def Harmless : Call → Prop
  | .chroot _ | .setgid _ | .setuid _ | .capSetProc _ | .execv _ _ => False
  | _ => True

theorem kernel_harmless {s s' : Process} {c : Call} {r : Res c} (hc : Harmless c)
    (h : kernel s c r s') : s' = s := by
  cases c <;> first | exact h | exact h.2 | exact hc.elim

/-- `CAP_SYS_CHROOT` is in none of the sets. -/
def Caps.Without (caps : Caps) : Prop :=
  CAP_SYS_CHROOT ∉ caps.permitted ∧ CAP_SYS_CHROOT ∉ caps.effective ∧
    CAP_SYS_CHROOT ∉ caps.inheritable

/-- After the `chroot`, the process started as `s₀` has become its real user and group. -/
def BecameUser (s₀ s : Process) : Prop :=
  (∃ jail, s.deeds = s₀.deeds ++ [.chroot jail, .setgid s₀.rgid, .setuid s₀.ruid]) ∧
    s.ruid = s₀.ruid ∧ s.euid = s₀.ruid ∧ s.suid = s₀.ruid

/-- After the `chroot`, the process started as `s₀` has lost the right to another. -/
def LostChroot (s₀ s : Process) : Prop :=
  (∃ jail, s.deeds = s₀.deeds ++ [.chroot jail, .setCaps]) ∧ s.caps.Without

def AtExecv (D : Process → Prop) (s : Process) (c : Call) : Prop :=
  ∀ path argv, c = .execv path argv → D s

theorem atExecv_harmless {D : Process → Prop} {s : Process} {c : Call} (hc : Harmless c) :
    AtExecv D s c := by
  rintro path argv rfl
  exact hc.elim

variable {α β : Type} {D : Process → Prop} {s : Process}

theorem always_harmless {p : Cmd α} (hp : p.Only Harmless) :
    p.Always kernel (AtExecv D) (fun _ s' => s' = s) s := by
  refine always_of_only hp ?_ (fun _ _ hc _ => atExecv_harmless hc) rfl
  intro s₁ c r s' hc hs h
  rw [kernel_harmless hc h, hs]

/-- A part without privileged calls leaves the process as it found it. -/
theorem always_bind_harmless {p : Cmd α} {f : α → Cmd β} {Q : β → Process → Prop}
    (hp : p.Only Harmless) (hf : ∀ a, (f a).Always kernel (AtExecv D) Q s) :
    (p >>= f).Always kernel (AtExecv D) Q s := by
  rw [always_bind]
  refine always_mono (always_harmless hp) ?_
  rintro a s' rfl
  exact hf a

theorem always_exit {Q : α → Process → Prop} {n : Nat} :
    (exit n : Cmd α).Always kernel (AtExecv D) Q s :=
  ⟨atExecv_harmless trivial, fun r => r.elim⟩

theorem getpw_harmless (user : Option Text) : (getpw user).Only Harmless := by
  cases user with
  | none => exact only_bind (only_call trivial) fun _ => only_call trivial
  | some name => exact only_call trivial

theorem userInfo_harmless : userInfo.Only Harmless := by
  refine only_bind (only_call trivial) fun _ => only_bind (getpw_harmless _) fun r => ?_
  cases r with
  | none => exact only_exit trivial
  | some pw =>
      refine only_bind (only_exitIf trivial) fun _ => ?_
      refine only_bind (only_exitIf trivial) fun _ => ?_
      refine only_bind (only_call trivial) fun _ => ?_
      refine only_bind (only_exitIf trivial) fun _ => ?_
      refine only_bind (only_call trivial) fun _ => only_bind (only_call trivial) fun r => ?_
      cases r with
      | none => exact only_exit trivial
      | some gr_name => trivial

theorem injailNames_harmless (user : Option Text) (pw : Passwd) (gr_name : Text) :
    (injailNames user pw gr_name).Only Harmless := by
  refine only_bind (getpw_harmless user) fun r => ?_
  cases r with
  | none => exact only_exit trivial
  | some inpw =>
      refine only_bind (only_call trivial) fun _ => only_bind (only_exitIf trivial) fun _ => ?_
      refine only_bind (only_call trivial) fun _ => only_bind (only_call trivial) fun r => ?_
      cases r with
      | none => exact only_exit trivial
      | some ingr_name =>
          exact only_bind (only_exitIf trivial) fun _ =>
            only_bind (only_exitIf trivial) fun _ => trivial

section

variable {P : Call → Prop}

theorem closeRetry_only (hclose : ∀ fd, P (.close fd)) (hhang : P .hang) (i fuel : Nat) :
    (closeRetry i fuel).Only P := by
  induction fuel with
  | zero => exact ⟨hhang, fun r => r.elim⟩
  | succ fuel ih =>
      refine only_bind (only_call (hclose i)) fun r => ?_
      split
      · exact ih
      · trivial

theorem closeLoop_only (hclose : ∀ fd, P (.close fd)) (hhang : P .hang) (fuel i : Nat) :
    (closeLoop fuel i).Only P := by
  induction i with
  | zero => trivial
  | succ i ih =>
      rw [closeLoop]
      split
      · exact only_bind (closeRetry_only hclose hhang i fuel) fun _ => ih
      · trivial

theorem basicjailissafe_only (hlstat : ∀ path, P (.lstat path)) (path : Text) :
    (basicjailissafe path).Only P := by
  refine only_bind (only_call (hlstat path)) fun r => ?_
  split
  · trivial
  · generalize ["dev/", "etc/", "lib/", "usr/", "bin/", "sbin/"] = dirs
    induction dirs with
    | nil => trivial
    | cons dir dirs ih =>
        refine only_bind (only_call (hlstat _)) fun r => ?_
        dsimp only
        split
        · trivial
        · exact ih

end

theorem closeDownTo_harmless (fuel i : Nat) : (closeDownTo fuel i).Only Harmless := by
  induction i with
  | zero => trivial
  | succ i ih =>
      rw [closeDownTo]
      split
      · exact only_bind (closeRetry_only (fun _ => trivial) trivial (i + 1) fuel) fun _ => ih
      · trivial

theorem reopenStandard_harmless (fuel : Nat) : (reopenStandard fuel).Only Harmless := by
  induction fuel with
  | zero => exact ⟨trivial, fun r => r.elim⟩
  | succ fuel ih =>
      refine only_bind (only_call trivial) fun r => ?_
      cases r with
      | none => exact only_exit trivial
      | some fd =>
          simp only
          split
          · exact only_bind (only_call trivial) fun _ => trivial
          · exact ih

theorem closeDescriptors_harmless (fuel : Nat) : (closeDescriptors fuel).Only Harmless :=
  only_bind (only_call trivial) fun _ =>
    only_bind (closeLoop_only (fun _ => trivial) trivial fuel _) fun _ => reopenStandard_harmless fuel

theorem basicjailissafe_harmless (path : Text) : (basicjailissafe path).Only Harmless :=
  basicjailissafe_only (fun _ => trivial) path

theorem unsetEnvironLoop_harmless (except : List Text) (i fuel : Nat) :
    (unsetEnvironLoop except i fuel).Only Harmless := by
  induction fuel generalizing i with
  | zero => exact ⟨trivial, fun r => r.elim⟩
  | succ fuel ih =>
      refine only_bind (only_call trivial) fun r => ?_
      split
      · trivial
      · split
        · exact only_call trivial
        · dsimp only
          split
          · exact ih _
          · exact only_bind (only_call trivial) fun _ => ih 0

theorem unsetEnvironExcept_harmless (except : Option (List Text)) (fuel : Nat) :
    (unsetEnvironExcept except fuel).Only Harmless := by
  refine only_bind (only_call trivial) fun r => ?_
  split
  · exact only_call trivial
  · exact unsetEnvironLoop_harmless _ 0 fuel

theorem findJail_harmless (pw : Passwd) : (findJail pw).Only Harmless := by
  refine only_bind (only_call trivial) fun _ => only_bind (only_exitIf trivial) fun _ => ?_
  refine only_bind (only_exitIf trivial) fun _ => only_bind (only_exitIf trivial) fun _ => ?_
  split
  · exact only_exit trivial
  · refine only_bind (only_call trivial) fun _ => only_bind (only_exitIf trivial) fun _ => ?_
    refine only_bind (only_call trivial) fun r => ?_
    cases r with
    | none => exact only_exit trivial
    | some test => exact only_bind (only_exitIf trivial) fun _ => trivial

theorem checkHome_harmless (o : ChrootshOptions) (pw : Passwd) (jaildir : Text) :
    (checkHome o pw jaildir).Only Harmless := by
  refine only_bind (basicjailissafe_harmless jaildir) fun _ => ?_
  refine only_bind (only_exitIf trivial) fun _ => only_bind (only_call trivial) fun _ => ?_
  refine only_bind (only_call trivial) fun _ => only_bind (only_call trivial) fun _ => ?_
  dsimp only
  split
  · exact only_exit trivial
  · trivial

theorem readChrootshOptions_harmless (b : Build) (memory : Memory) (pw : Passwd)
    (gr_name : Text) : (readChrootshOptions b memory pw gr_name).Only Harmless := by
  refine only_bind (only_call trivial) fun _ => only_bind (only_exitIf trivial) fun _ => ?_
  refine only_bind (only_call trivial) fun r => ?_
  cases r <;> trivial

theorem readUchrootOptions_harmless (b : Build) (memory : Memory) (pw : Passwd)
    (gr_name : Text) : (readUchrootOptions b memory pw gr_name).Only Harmless := by
  refine only_bind (only_call trivial) fun _ => only_bind (only_exitIf trivial) fun _ => ?_
  refine only_bind (only_call trivial) fun r => ?_
  cases r with
  | none => exact only_exit trivial
  | some file =>
      simp only
      split
      · exact only_exit trivial
      · trivial

theorem getoptLoop_harmless (jail executable : Option Text) (fuel : Nat) :
    (getoptLoop jail executable fuel).Only Harmless := by
  induction fuel generalizing jail executable with
  | zero => exact ⟨trivial, fun r => r.elim⟩
  | succ fuel ih =>
      refine only_bind (only_call trivial) fun r => ?_
      cases r with
      | jail optarg => exact ih _ _
      | executable optarg => exact ih _ _
      | other => exact ih _ _
      | help => exact only_exit trivial
      | version => exact only_exit trivial
      | done => trivial

theorem uchrootArgs_harmless (fuel : Nat) : (uchrootArgs fuel).Only Harmless := by
  refine only_bind (getoptLoop_harmless none none fuel) fun opts => ?_
  refine only_bind (only_call trivial) fun operands => ?_
  split
  · exact only_bind (only_call trivial) fun _ => only_bind (only_exitIf trivial) fun _ => trivial
  · exact only_exit trivial

theorem enterDirectory_harmless (jail : Text) : (enterDirectory jail).Only Harmless := by
  refine only_bind (only_call trivial) fun _ => only_bind (only_exitIf trivial) fun _ => ?_
  refine only_bind (only_call trivial) fun r => ?_
  cases r with
  | none => exact only_exit trivial
  | some test => exact only_exitIf trivial

theorem procmailJail_harmless (pw : Passwd) : (procmailJail pw).Only Harmless := by
  refine only_bind (only_call trivial) fun _ => only_bind (only_call trivial) fun r => ?_
  cases r with
  | none => exact only_exit trivial
  | some gr_name =>
      refine only_bind (only_call trivial) fun _ => only_bind (only_call trivial) fun _ => ?_
      refine only_bind (only_exitIf trivial) fun _ => only_bind (only_exitIf trivial) fun _ => ?_
      split
      · exact only_exit trivial
      · refine only_bind (only_call trivial) fun _ => ?_
        refine only_bind (only_exitIf trivial) fun _ => only_bind (only_call trivial) fun r => ?_
        cases r with
        | none => exact ⟨trivial, fun r => r.elim⟩
        | some test =>
            refine only_bind (only_exitIf trivial) fun _ => ?_
            refine only_bind (only_call trivial) fun _ => ?_
            refine only_bind (only_exitIf trivial) fun _ => ?_
            refine only_bind (only_call trivial) fun _ => ?_
            refine only_bind (only_call trivial) fun _ => ?_
            refine only_bind (only_call trivial) fun _ => ?_
            exact only_bind (only_exitIf trivial) fun _ =>
              only_bind (only_exitIf trivial) fun _ => trivial

theorem injailPasswd_harmless (pw : Passwd) (gr_name newhome : Text) :
    (injailPasswd pw gr_name newhome).Only Harmless := by
  refine only_bind (only_call trivial) fun _ => only_bind (only_call trivial) fun inpw => ?_
  refine only_bind (only_call trivial) fun _ => only_bind (only_call trivial) fun ingr => ?_
  split
  · exact only_bind (only_exitIf trivial) fun _ =>
      only_bind (only_exitIf trivial) fun _ => trivial
  · exact only_exit trivial

theorem injailUser_harmless (user : Option Text) (pw : Passwd) (gr_name newhome : Text) :
    (injailUser user pw gr_name newhome).Only Harmless := by
  refine only_bind (injailNames_harmless user pw gr_name) fun inpw => ?_
  split
  · trivial
  · refine only_bind (only_call trivial) fun _ => only_bind (only_call trivial) fun r => ?_
    cases r with
    | none => exact only_exit trivial
    | some intpw => exact only_bind (only_exitIf trivial) fun _ => trivial

theorem always_exitIf {b : Prop} [Decidable b] {n : Nat} {Q : Unit → Process → Prop}
    (h : ¬ b → Q () s) : (exitIf b n).Always kernel (AtExecv D) Q s := by
  rw [exitIf]
  split
  · exact always_exit
  · exact h ‹_›

theorem haveCapabilities_harmless (b : Build) : (haveCapabilities b).Only Harmless := by
  rw [haveCapabilities]
  split
  · refine only_bind (only_call trivial) fun r => ?_
    cases r with
    | none => trivial
    | some caps => exact only_call trivial
  · trivial

theorem setuidCheck_harmless (b : Build) : (setuidCheck b).Only Harmless := by
  have hmode : (chooseMode b).Only Harmless := by
    refine only_bind (only_call trivial) fun euid => ?_
    split
    · refine only_bind (haveCapabilities_harmless b) fun r => ?_
      cases r with
      | true => trivial
      | false => exact only_exit trivial
    · trivial
  refine only_bind hmode fun _ => only_bind (only_call trivial) fun _ => ?_
  exact only_bind (only_exitIf trivial) fun _ => trivial

/-- A call, with what it answers and where it leads. -/
theorem always_call {c : Call} {f : Res c → Cmd β} {Q : β → Process → Prop}
    (hc : AtExecv D s c)
    (h : ∀ r s', kernel s c r s' → (f r).Always kernel (AtExecv D) Q s') :
    (perform c >>= f).Always kernel (AtExecv D) Q s :=
  (always_perform_bind c f Q s).mpr ⟨hc, h⟩

/-- The `chroot` is required to succeed. -/
theorem always_chroot {path : Text} {n : Nat} {p : Cmd β} {Q : β → Process → Prop}
    (hp : p.Always kernel (AtExecv D) Q (s.did (.chroot path))) :
    (do
      exitIf (!(← perform (.chroot path))) n
      p : Cmd β).Always kernel (AtExecv D) Q s := by
  refine always_call (fun _ _ h => by simp at h) fun r s' hs => ?_
  rw [always_bind]
  refine always_exitIf fun hr => ?_
  have hr : r = true := by simpa using hr
  subst hr
  have hs : s' = s.did (.chroot path) := hs
  rwa [hs]

theorem chooseMode_spec (b : Build) :
    (chooseMode b).Always kernel (AtExecv D)
      (fun useCapabilities s' => s' = s ∧ (useCapabilities = false ↔ s.euid = 0)) s := by
  refine always_call (atExecv_harmless trivial) ?_
  rintro _ _ ⟨rfl, rfl⟩
  split
  · refine always_bind_harmless (haveCapabilities_harmless b) fun r => ?_
    split
    · exact ⟨rfl, iff_of_false (by simp) ‹_›⟩
    · exact always_exit
  · exact ⟨rfl, iff_of_true rfl (Classical.not_not.mp ‹_›)⟩

/-- The check passes for a real user other than 0 only, and it goes without capabilities
for the effective user 0. -/
theorem setuidCheck_spec (b : Build) :
    (setuidCheck b).Always kernel (AtExecv D)
      (fun useCapabilities s' =>
        s' = s ∧ s.ruid ≠ 0 ∧ (useCapabilities = false ↔ s.euid = 0)) s := by
  rw [setuidCheck, always_bind]
  refine always_mono (chooseMode_spec b) ?_
  rintro useCapabilities _ ⟨rfl, hmode⟩
  refine always_call (atExecv_harmless trivial) ?_
  rintro _ _ ⟨rfl, rfl⟩
  rw [always_bind]
  exact always_exitIf fun hroot => ⟨rfl, hroot, hmode⟩

/-- A privileged call that is required to succeed. -/
theorem becomeGroup_spec :
    becomeGroup.Always kernel (AtExecv D) (fun _ s' => s' = s.setgid s.rgid) s := by
  refine always_call (atExecv_harmless trivial) ?_
  rintro _ _ ⟨rfl, rfl⟩
  refine always_call (fun _ _ h => by simp at h) fun r s' hs => always_exitIf fun hr => ?_
  have hr : r = true := by simpa using hr
  subst hr
  exact hs

theorem becomeUser_spec :
    becomeUser.Always kernel (AtExecv D) (fun _ s' => s' = s.setuid s.ruid) s := by
  refine always_call (atExecv_harmless trivial) ?_
  rintro _ _ ⟨rfl, rfl⟩
  refine always_call (fun _ _ h => by simp at h) fun r s' hs => always_exitIf fun hr => ?_
  have hr : r = true := by simpa using hr
  subst hr
  exact hs

theorem clearCaps_spec (caps : Caps) (n : Nat) (set : CapSet) :
    (clearCaps caps n set).Always kernel (AtExecv D)
      (fun caps' s' => s' = s ∧ caps' = caps.clear set) s := by
  refine always_call (atExecv_harmless trivial) ?_
  rintro r _ ⟨hr, rfl⟩
  cases r with
  | none => exact always_exit
  | some caps' => exact ⟨rfl, hr caps' rfl⟩

theorem clear_without (caps : Caps) :
    (((caps.clear .permitted).clear .effective).clear .inheritable).Without := by
  simp [Caps.clear, Caps.Without]

theorem dropCapability_spec (b : Build) :
    (dropCapability b).Always kernel (AtExecv D)
      (fun _ s' => s'.deeds = s.deeds ++ [.setCaps] ∧ s'.caps.Without) s := by
  rw [dropCapability]
  split
  · refine always_call (atExecv_harmless trivial) ?_
    rintro r _ ⟨-, rfl⟩
    cases r with
    | none => exact always_exit
    | some caps =>
        simp only
        rw [always_bind]
        refine always_mono (clearCaps_spec caps 102 .permitted) ?_
        rintro _ _ ⟨rfl, rfl⟩
        rw [always_bind]
        refine always_mono (clearCaps_spec _ 103 .effective) ?_
        rintro _ _ ⟨rfl, rfl⟩
        rw [always_bind]
        refine always_mono (clearCaps_spec _ 104 .inheritable) ?_
        rintro _ _ ⟨rfl, rfl⟩
        refine always_call (fun _ _ h => by simp at h) fun r s' hs => always_exitIf fun hr => ?_
        have hr : r = true := by simpa using hr
        subst hr
        have hs : s' = _ := hs
        subst hs
        exact ⟨rfl, clear_without caps⟩
  · exact always_exit

/-- The privileges are given up in one of the two ways, by who started the program. -/
def Dropped (s₀ s : Process) : Prop :=
  s₀.ruid ≠ 0 ∧ (s₀.euid = 0 ∧ BecameUser s₀ s ∨ s₀.euid ≠ 0 ∧ LostChroot s₀ s)

theorem becameUser_setuid {s₀ s : Process} {jail : Text} (heuid : s.euid = 0)
    (hruid : s.ruid = s₀.ruid)
    (hdeeds : s.deeds = s₀.deeds ++ [.chroot jail, .setgid s₀.rgid]) :
    BecameUser s₀ (s.setuid s.ruid) := by
  simp only [Process.setuid, heuid, ite_true, Process.did, hdeeds, hruid]
  exact ⟨⟨jail, by simp⟩, rfl, rfl, rfl⟩

theorem setgid_chroot {s₀ : Process} {jail : Text} (heuid : s₀.euid = 0) :
    let s := (s₀.did (.chroot jail)).setgid s₀.rgid
    s.euid = 0 ∧ s.ruid = s₀.ruid ∧
      s.deeds = s₀.deeds ++ [.chroot jail, .setgid s₀.rgid] := by
  simp [Process.setgid, Process.did, heuid]

theorem dropPrivileges_spec (b : Build) (useCapabilities : Bool) (gids : Option (List Nat))
    {s₀ : Process} {jail : Text} (hruid : s₀.ruid ≠ 0)
    (hmode : useCapabilities = false ↔ s₀.euid = 0) :
    (dropPrivileges b useCapabilities gids).Always kernel (AtExecv D)
      (fun _ s' => Dropped s₀ s') (s₀.did (.chroot jail)) := by
  cases useCapabilities with
  | true =>
      refine always_mono (dropCapability_spec b) ?_
      rintro _ s' ⟨hdeeds, hcaps⟩
      refine ⟨hruid, Or.inr ⟨fun h => by simp [h] at hmode, ⟨jail, ?_⟩, hcaps⟩⟩
      rw [hdeeds]
      simp [Process.did]
  | false =>
      have heuid : s₀.euid = 0 := hmode.mp rfl
      rw [dropPrivileges, if_neg Bool.false_ne_true, always_bind]
      refine always_mono becomeGroup_spec ?_
      rintro _ _ rfl
      have hgids : (setSupplementary gids).Only Harmless := by
        cases gids with
        | none => trivial
        | some gids => exact only_bind (only_call trivial) fun _ => only_exitIf trivial
      refine always_bind_harmless hgids fun _ => always_mono becomeUser_spec ?_
      rintro _ _ rfl
      obtain ⟨h₁, h₂, h₃⟩ := @setgid_chroot s₀ jail heuid
      exact ⟨hruid, Or.inl ⟨heuid, becameUser_setuid h₁ h₂ h₃⟩⟩

/-- What may still be called once the privileges are gone. -/
def Mild (c : Call) : Prop := Harmless c ∨ ∃ path argv, c = .execv path argv

theorem only_mild {p : Cmd α} (hp : p.Only Harmless) : p.Only Mild :=
  only_mono hp fun _ => Or.inl

theorem always_mild {p : Cmd α} (hp : p.Only Mild) (hs : D s) :
    p.Always kernel (AtExecv D) (fun _ s' => D s') s := by
  refine always_of_only hp ?_ (fun s c _ hs _ _ _ => hs) hs
  rintro s₁ c r s' (hc | ⟨path, argv, rfl⟩) hs h
  · rwa [kernel_harmless hc h]
  · have h : s' = s₁ := h
    rwa [h]

theorem startShell_mild (pw : Passwd) (shell newhome : Text) (argv : List Text) :
    (startShell pw shell newhome argv).Only Mild := by
  refine only_bind (only_call (Or.inl trivial)) fun _ => ?_
  refine only_bind (only_call (Or.inl trivial)) fun _ => ?_
  refine only_bind (only_call (Or.inl trivial)) fun _ => ?_
  refine only_bind (only_call (Or.inl trivial)) fun _ => ?_
  refine only_bind (only_call (Or.inl trivial)) fun _ => ?_
  refine only_bind (only_call (Or.inl trivial)) fun _ => ?_
  refine only_bind (only_exitIf (Or.inl trivial)) fun _ => ?_
  exact only_bind (only_call (Or.inr ⟨_, _, rfl⟩)) fun _ => only_exit (Or.inl trivial)

theorem insideJail_mild (o : ChrootshOptions) (user : Option Text) (pw : Passwd)
    (gr_name newhome : Text) (argv : List Text) :
    (insideJail o user pw gr_name newhome argv).Only Mild := by
  refine only_bind (only_mild ?_) fun r => startShell_mild _ _ _ _
  rw [jailUser]
  split
  · exact injailUser_harmless user pw gr_name newhome
  · trivial

theorem chrootshMain_dropped (b : Build) (memory : Memory) (fuel : Nat)
    (argv : List Text) (s₀ : Process) :
    (chrootshMain b memory fuel argv).Always kernel (AtExecv (Dropped s₀))
      (fun _ _ => True) s₀ := by
  refine always_bind_harmless (only_exitIf trivial) fun _ => ?_
  rw [always_bind]
  refine always_mono (setuidCheck_spec b) ?_
  rintro useCapabilities _ ⟨rfl, hruid, hmode⟩
  refine always_bind_harmless userInfo_harmless fun info => ?_
  refine always_bind_harmless (only_call trivial) fun gids => ?_
  cases gids with
  | none => exact always_exit
  | some gids =>
      refine always_bind_harmless (readChrootshOptions_harmless b memory _ _) fun o => ?_
      refine always_bind_harmless (closeDescriptors_harmless fuel) fun _ => ?_
      refine always_bind_harmless (unsetEnvironExcept_harmless _ fuel) fun _ => ?_
      refine always_bind_harmless (findJail_harmless _) fun jail => ?_
      refine always_bind_harmless (checkHome_harmless o _ _) fun _ => ?_
      refine always_chroot ?_
      rw [always_bind]
      refine always_mono (dropPrivileges_spec b useCapabilities (some gids) hruid hmode) ?_
      intro _ s' hdropped
      exact always_mono (always_mild (insideJail_mild _ _ _ _ _ _) hdropped) fun _ _ _ => trivial

theorem uchrootInjail_harmless (skip : Nat) (user : Option Text) (pw : Passwd)
    (gr_name : Text) : (uchrootInjail skip user pw gr_name).Only Harmless := by
  rw [uchrootInjail]
  split
  · exact only_bind (injailNames_harmless user pw gr_name) fun _ => trivial
  · trivial

theorem uchrootMain_dropped (b : Build) (memory : Memory) (fuel : Nat)
    (argv : List Text) (s₀ : Process) :
    (uchrootMain b memory fuel argv).Always kernel (AtExecv (Dropped s₀))
      (fun _ _ => True) s₀ := by
  refine always_bind_harmless (only_exitIf trivial) fun _ => ?_
  rw [always_bind]
  refine always_mono (setuidCheck_spec b) ?_
  rintro useCapabilities _ ⟨rfl, hruid, hmode⟩
  refine always_bind_harmless userInfo_harmless fun info => ?_
  refine always_bind_harmless (uchrootArgs_harmless fuel) fun args => ?_
  refine always_bind_harmless (readUchrootOptions_harmless b memory _ _) fun options => ?_
  refine always_bind_harmless (closeDescriptors_harmless fuel) fun _ => ?_
  refine always_bind_harmless (only_exitIf trivial) fun _ => ?_
  refine always_bind_harmless (basicjailissafe_harmless _) fun _ => ?_
  refine always_bind_harmless (only_exitIf trivial) fun _ => ?_
  refine always_bind_harmless (enterDirectory_harmless _) fun _ => ?_
  refine always_chroot ?_
  rw [always_bind]
  refine always_mono (dropPrivileges_spec b useCapabilities none hruid hmode) ?_
  intro _ s' hdropped
  have hinjail := uchrootInjail_harmless options.2 info.1 info.2.1 info.2.2
  have hrest := only_bind (only_mild hinjail) fun _ =>
    only_bind (only_call (Or.inr ⟨args.executable, args.newargv, rfl⟩)) fun _ =>
      only_exit (α := Unit) (n := 111) (P := Mild) (Or.inl trivial)
  exact always_mono (always_mild hrest hdropped) fun _ _ _ => trivial

/-- The call starts no program and is no `chroot`. -/
def Quiet (c : Call) : Prop := ∀ path, c ≠ .chroot path ∧ ∀ argv, c ≠ .execv path argv

theorem only_quiet {p : Cmd α} (hp : p.Only Harmless) : p.Only Quiet := by
  refine only_mono hp fun c hc path => ⟨?_, fun argv => ?_⟩
  · rintro rfl
    exact hc
  · rintro rfl
    exact hc

theorem becomeGroup_quiet : becomeGroup.Only Quiet := by
  refine only_bind (only_call fun _ => ⟨nofun, nofun⟩) fun _ => ?_
  refine only_bind (only_call fun _ => ⟨nofun, nofun⟩) fun _ => ?_
  exact only_quiet (only_exitIf trivial)

theorem becomeUser_quiet : becomeUser.Only Quiet := by
  refine only_bind (only_call fun _ => ⟨nofun, nofun⟩) fun _ => ?_
  refine only_bind (only_call fun _ => ⟨nofun, nofun⟩) fun _ => ?_
  exact only_quiet (only_exitIf trivial)

theorem clearCaps_quiet (caps : Caps) (n : Nat) (set : CapSet) :
    (clearCaps caps n set).Only Quiet := by
  refine only_bind (only_call fun _ => ⟨nofun, nofun⟩) fun r => ?_
  cases r with
  | none => exact only_quiet (only_exit trivial)
  | some caps => trivial

theorem dropCapability_quiet (b : Build) : (dropCapability b).Only Quiet := by
  rw [dropCapability]
  split
  · refine only_bind (only_call fun _ => ⟨nofun, nofun⟩) fun r => ?_
    cases r with
    | none => exact only_quiet (only_exit trivial)
    | some caps =>
        refine only_bind (clearCaps_quiet caps 102 .permitted) fun caps => ?_
        refine only_bind (clearCaps_quiet caps 103 .effective) fun caps => ?_
        refine only_bind (clearCaps_quiet caps 104 .inheritable) fun caps => ?_
        refine only_bind (only_call fun _ => ⟨nofun, nofun⟩) fun _ => ?_
        exact only_quiet (only_exitIf trivial)
  · exact only_quiet (only_exit trivial)

theorem dropPrivileges_quiet (b : Build) (useCapabilities : Bool)
    (gids : Option (List Nat)) : (dropPrivileges b useCapabilities gids).Only Quiet := by
  rw [dropPrivileges]
  split
  · exact dropCapability_quiet b
  · refine only_bind becomeGroup_quiet fun _ => only_bind ?_ fun _ => becomeUser_quiet
    cases gids with
    | none => trivial
    | some gids =>
        refine only_bind (only_call fun _ => ⟨nofun, nofun⟩) fun _ => ?_
        exact only_quiet (only_exitIf trivial)

/-- Without a jail, `execve` starts the program, not `execv`. -/
theorem runUnjailed_quiet (b : Build) (pw : Passwd) (argv : List Text) :
    (runUnjailed b pw argv).Only Quiet := by
  refine only_bind becomeGroup_quiet fun _ => ?_
  refine only_bind (only_quiet (only_call trivial)) fun _ => ?_
  refine only_bind (only_quiet (only_call trivial)) fun _ => ?_
  refine only_bind (only_quiet (only_exitIf trivial)) fun _ => ?_
  refine only_bind becomeUser_quiet fun _ => ?_
  exact only_quiet (only_bind (only_call trivial) fun _ => only_exit trivial)

theorem dropToUser_quiet (pw : Passwd) : (dropToUser pw).Only Quiet := by
  refine only_bind becomeGroup_quiet fun _ => ?_
  refine only_bind (only_quiet (only_call trivial)) fun _ => ?_
  refine only_bind (only_quiet (only_call trivial)) fun _ => ?_
  exact only_bind (only_quiet (only_exitIf trivial)) fun _ => becomeUser_quiet

theorem requireSetuidRoot_harmless : requireSetuidRoot.Only Harmless :=
  only_bind (only_call trivial) fun _ => only_bind (only_exitIf trivial) fun _ =>
    only_bind (only_call trivial) fun _ => only_exitIf trivial

theorem requireSetuidRoot_spec :
    requireSetuidRoot.Always kernel (AtExecv D)
      (fun _ s' => s' = s ∧ s.euid = 0 ∧ s.ruid ≠ 0) s := by
  refine always_call (atExecv_harmless trivial) ?_
  rintro _ _ ⟨rfl, rfl⟩
  rw [always_bind]
  refine always_exitIf fun heuid => always_call (atExecv_harmless trivial) ?_
  rintro _ _ ⟨rfl, rfl⟩
  exact always_exitIf fun hruid => ⟨rfl, Classical.not_not.mp heuid, hruid⟩

theorem dropToUser_spec (pw : Passwd) {s₀ : Process} {jail : Text} (heuid : s₀.euid = 0) :
    (dropToUser pw).Always kernel (AtExecv D) (fun _ s' => BecameUser s₀ s')
      (s₀.did (.chroot jail)) := by
  rw [dropToUser, always_bind]
  refine always_mono becomeGroup_spec ?_
  rintro _ _ rfl
  refine always_bind_harmless (only_call trivial) fun _ => ?_
  refine always_bind_harmless (only_call trivial) fun _ => ?_
  refine always_bind_harmless (only_exitIf trivial) fun _ => always_mono becomeUser_spec ?_
  rintro _ _ rfl
  obtain ⟨h₁, h₂, h₃⟩ := @setgid_chroot s₀ jail heuid
  exact becameUser_setuid h₁ h₂ h₃

theorem startProcmail_mild (b : Build) (pw : Passwd) (newhome : Text) (argv : List Text) :
    (startProcmail b pw newhome argv).Only Mild := by
  refine only_bind (only_call (Or.inl trivial)) fun _ => ?_
  refine only_bind (only_call (Or.inl trivial)) fun _ => ?_
  refine only_bind (only_call (Or.inl trivial)) fun _ => ?_
  refine only_bind (only_call (Or.inl trivial)) fun _ => ?_
  refine only_bind (only_exitIf (Or.inl trivial)) fun _ => ?_
  exact only_bind (only_call (Or.inr ⟨_, _, rfl⟩)) fun _ => only_exit (Or.inl trivial)

theorem procmailMain_dropped (b : Build) (fuel : Nat) (argv : List Text) (s₀ : Process) :
    (procmailMain b fuel argv).Always kernel (AtExecv (BecameUser s₀)) (fun _ _ => True) s₀ := by
  refine always_bind_harmless (only_call trivial) fun _ => ?_
  refine always_bind_harmless (only_call trivial) fun r => ?_
  cases r with
  | none => exact ⟨atExecv_harmless trivial, fun r => r.elim⟩
  | some pw =>
      simp only
      split
      · refine always_of_only (runUnjailed_quiet b pw argv) (fun _ _ _ _ _ _ _ => trivial) ?_
          trivial
        intro s c hc _ path args h
        exact absurd h ((hc path).2 args)
      · refine always_bind_harmless (only_exitIf trivial) fun _ => ?_
        refine always_bind_harmless (only_call trivial) fun limit => ?_
        refine always_bind_harmless (closeDownTo_harmless fuel _) fun _ => ?_
        rw [always_bind]
        refine always_mono requireSetuidRoot_spec ?_
        rintro _ _ ⟨rfl, heuid, -⟩
        refine always_bind_harmless (procmailJail_harmless pw) fun jail => ?_
        refine always_chroot ?_
        rw [always_bind]
        refine always_mono (dropToUser_spec pw heuid) ?_
        intro _ s' hbecame
        have hrest := only_bind (only_mild (injailPasswd_harmless pw jail.1 jail.2.2))
          fun inpw => startProcmail_mild b inpw jail.2.2 argv
        exact always_mono (always_mild hrest hbecame) fun _ _ _ => trivial

def sampleStart : Process where
  ruid := 1000
  euid := 0
  suid := 0
  rgid := 1000
  egid := 1000
  sgid := 1000
  caps := ⟨[], [], []⟩
  deeds := []

def samplePasswd (dir : String) : Passwd where
  pw_name := "bob".toList
  pw_uid := 1000
  pw_gid := 1000
  pw_dir := dir.toList
  pw_shell := "/bin/sh".toList

def sampleAnswer (s : Process) : (c : Call) → Option (Res c × Process)
  | .getenv _ => some (none, s)
  | .environ => some ([], s)
  | .setenv _ _ | .unsetenv _ | .clearenv | .execve _ _ | .execv _ _ => some ((), s)
  | .geteuid => some (s.euid, s)
  | .getuid => some (s.ruid, s)
  | .getgid => some (s.rgid, s)
  | .getpwnam _ => some (none, s)
  | .getpwuid _ =>
      if s.deeds = [] then some (some (samplePasswd "/jail/./home"), s)
      else some (some (samplePasswd "/home"), s)
  | .internalGetpwuid _ _ => some (none, s)
  | .getgrgid _ => some (some "users".toList, s)
  | .getgroups => some (some [1000], s)
  | .getoptLong => some (.done, s)
  | .operands => some ([], s)
  | .lstat path =>
      if path = "/jail/./home".toList then some (some ⟨0o40755, 1000, 1000⟩, s)
      else some (some ⟨0o40755, 0, 0⟩, s)
  | .stat _ => some (.ok ⟨0o100755, 0, 0⟩, s)
  | .newIniparser _ => some (none, s)
  | .getdtablesize => some (4, s)
  | .close _ => some (none, s)
  | .openNull => some (some 3, s)
  | .chdir _ => some (true, s)
  | .getcwd | .getCurrentDirName => some (some "/jail".toList, s)
  | .chroot path => some (true, s.did (.chroot path))
  | .setgid g => some (true, s.setgid g)
  | .setgroups _ | .initgroups _ _ => some (true, s)
  | .setuid u => some (true, s.setuid u)
  | .capGetProc => some (none, s)
  | .capGetFlag _ => some (false, s)
  | .capClearFlag _ _ => some (none, s)
  | .capSetProc _ => some (false, s)
  | .umask _ => some (0, s)
  | .wordexp _ => some (none, s)
  | .exit _ | .crash | .hang => none

theorem sampleAnswer_kernel (s : Process) (c : Call) (r : Res c) (s' : Process)
    (h : sampleAnswer s c = some (r, s')) : kernel s c r s' := by
  cases c <;> simp only [sampleAnswer] at h <;> (try split at h) <;> cases h <;>
    simp [kernel]

def sampleBuild : Build where
  haveCapGetProc := false
  iniprefix := "/etc/jailkit".toList
  procmailpath := "/usr/bin/procmail".toList

def sampleEnd : Process :=
  ((sampleStart.did (.chroot "/jail".toList)).setgid 1000).setuid 1000

def isExecv : Call → Bool
  | .execv _ _ => true
  | _ => false

end Jailkit.Wrapper
