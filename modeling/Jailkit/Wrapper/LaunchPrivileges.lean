import Jailkit.Wrapper.Chrootlaunch
import Jailkit.Wrapper.AllowedJails

/-!
The user, the group and the supplementary groups with which jk_chrootlaunch starts a program.
-/
namespace Jailkit.Wrapper

open Prog

def withGroups : Machine Call Res (Process × List Nat) := fun s c r s' =>
  kernel s.1 c r s'.1 ∧
    match c, r with
    | .setgroups gids, r => s'.2 = if r then gids else s.2
    | .initgroups _ _, r => r = false → s'.2 = s.2
    | _, _ => s'.2 = s.2

/-- The process of root that starts jk_chrootlaunch. -/
structure Invoker where
  process : Process
  groups : List Nat
  root : process.euid = 0
  /-- No process has the group -1. -/
  valid : process.rgid ≠ noId.toNat

def Invoker.start (i : Invoker) : Process × List Nat := (i.process, i.groups)

/-- The options `-u` and `-g` are given, and this user and this group are found for them. -/
def Gives (db : Accounts) (opts : List LaunchOpt) (uid gid : UInt32) : Prop :=
  ∃ args, launchArgs ⟨none, none, none, none⟩ opts = some args ∧
    args.user.bind (lookupId db.getpwuid db.getpwnam) = some uid ∧
    args.group.bind (lookupId db.getgrgid db.getgrnam) = some gid

/-- Nothing of what the invoking process was allowed is left. -/
structure DropsAll (i : Invoker) (uid gid : Nat) (s : Process × List Nat) : Prop where
  uids : s.1.ruid = uid ∧ s.1.euid = uid ∧ s.1.suid = uid
  gids : s.1.rgid = gid ∧ s.1.egid = gid ∧ s.1.sgid = gid
  groups : ∀ g ∈ i.groups, g ∉ s.2

def Inert : Call → Prop
  | .setgroups _ | .initgroups _ _ => False
  | c => Harmless c

section

variable {α : Type} {s s' : Process × List Nat}

theorem withGroups_inert {c : Call} {r : Res c} (hc : Inert c) (h : withGroups s c r s') :
    s' = s := by
  have hprocess : Harmless c := by
    cases c <;> first | exact hc | trivial
  refine Prod.ext (kernel_harmless hprocess h.1) ?_
  cases c <;> first | exact h.2 | exact hc.elim

theorem returns_inert {p : Cmd α} {a : α} (hp : p.Only Inert) (h : Returns withGroups p s a s') :
    s' = s := by
  induction h with
  | ret => rfl
  | call hM _ ih => exact (ih (hp.2 _)).trans (withGroups_inert hp.1 hM)

/-- Behind a call that is required to succeed, the call has done its work. -/
theorem reaches_required {c d : Call} (answer : Res c → Bool) {n : Nat} {f : Cmd α}
    (h : Reaches withGroups (perform c >>= fun r => exitIf (!answer r) n >>= fun _ => f) s d s')
    (hcall : d ≠ c) (hexit : d ≠ .exit n) :
    ∃ r s₁, answer r = true ∧ withGroups s c r s₁ ∧ Reaches withGroups f s₁ d s' := by
  have hd : ¬ d ≠ d := fun hne => hne rfl
  obtain ⟨r, s₁, hr, hrest⟩ := reaches_past (P := (· ≠ d)) (only_call hcall.symm) hd h
  obtain ⟨_, s₂, hpass, hf⟩ := reaches_past (P := (· ≠ d)) (only_exitIf hexit.symm) hd hrest
  obtain ⟨hanswer, hs⟩ := returns_exitIf hpass
  rw [hs] at hf
  exact ⟨r, s₁, by simpa using hanswer, returns_perform.mp hr, hf⟩

/-- The process that `setgid` and then `setuid` leave, where they are called. -/
def Process.becomes (uid gid : Option Nat) (p : Process) : Process :=
  let p := gid.elim p p.setgid
  uid.elim p p.setuid

theorem chrootlaunchCloseDescriptors_inert (fuel : Nat) :
    (chrootlaunchCloseDescriptors fuel).Only Inert :=
  only_bind (only_call trivial) fun _ => closeLoop_only (fun _ => trivial) trivial fuel _

def setUser (exec : Text) (newargv : List Text) (uid : Option Nat) : Cmd Unit := do
  match uid with
  | none => pure ()
  | some uid => exitIf (!(← perform (.setuid uid))) 39
  perform (.execv exec newargv)
  Wrapper.exit 31

theorem execv_reaches {exec path : Text} {newargv argv : List Text}
    (h : Reaches withGroups (do perform (.execv exec newargv); Wrapper.exit (α := Unit) 31) s
      (.execv path argv) s') : s' = s := by
  rcases reaches_bind_cases h with h | ⟨_, _, -, h⟩
  · exact (reaches_perform.mp h).2
  · exact absurd h (not_reaches_of_only (P := Inert) (only_exit trivial) id)

theorem setUser_reaches {exec path : Text} {newargv argv : List Text} {uid : Option Nat}
    (h : Reaches withGroups (setUser exec newargv uid) s (.execv path argv) s') :
    s' = (uid.elim s.1 s.1.setuid, s.2) := by
  cases uid with
  | none => exact execv_reaches h
  | some uid =>
      obtain ⟨r, s₁, hr, hset, h⟩ :=
        reaches_required (c := .setuid uid) (fun r => r) h nofun nofun
      rw [execv_reaches h]
      exact Prod.ext (hset.1.trans (if_pos hr)) hset.2

/-- Where the program is started, the groups are those of before. -/
theorem chrootlaunchEnter_reaches {fuel : Nat} {jail exec path : Text}
    {newargv argv : List Text} {uid gid : Option Nat}
    (h : Reaches withGroups (chrootlaunchEnter fuel jail exec newargv uid gid) s
      (.execv path argv) s') :
    s' = ((s.1.did (.chroot jail)).becomes uid gid, s.2) := by
  have hno : ¬ Inert (.execv path argv) := id
  obtain ⟨_, s₁, hclose, h⟩ := reaches_past (chrootlaunchCloseDescriptors_inert fuel) hno h
  have hs₁ := returns_inert (chrootlaunchCloseDescriptors_inert fuel) hclose
  obtain ⟨_, s₂, -, hchdir, h⟩ := reaches_required (c := .chdir jail) (fun r => r) h nofun nofun
  have hs₂ := withGroups_inert (c := .chdir jail) trivial hchdir
  obtain ⟨r, s₃, hr, hchroot, h⟩ :=
    reaches_required (c := .chroot jail) (fun r => r) h nofun nofun
  have hs₃ : s₃ = (s.1.did (.chroot jail), s.2) := by
    rw [← hs₁, ← hs₂]
    refine Prod.ext ?_ hchroot.2
    exact hchroot.1.trans (if_pos hr)
  obtain ⟨s₄, hs₄, h⟩ : ∃ s₄, s₄ = (gid.elim s₃.1 s₃.1.setgid, s₃.2) ∧
      Reaches withGroups (setUser exec newargv uid) s₄ (.execv path argv) s' := by
    cases gid with
    | none => exact ⟨s₃, rfl, h⟩
    | some gid =>
        obtain ⟨r, s₄, hr, hset, h⟩ :=
          reaches_required (c := .setgid gid) (fun r => r) h nofun nofun
        exact ⟨s₄, Prod.ext (hset.1.trans (if_pos hr)) hset.2, h⟩
  rw [setUser_reaches h, hs₄, hs₃]
  rfl

theorem parseId_returns {byNumber : Nat → Option UInt32} {byName : Text → Option UInt32}
    {tmpstr : Option Text} {id id' : UInt32} (hid : tmpstr.bind (lookupId byNumber byName) = some id)
    (h : Returns withGroups (parseId byNumber byName tmpstr) s id' s') : id' = id ∧ s' = s := by
  obtain ⟨text, rfl, hlookup⟩ := Option.bind_eq_some_iff.mp hid
  rw [parseId, hlookup] at h
  exact returns_pure.mp h

theorem parseId_inert (byNumber : Nat → Option UInt32) (byName : Text → Option UInt32)
    (tmpstr : Option Text) : (parseId byNumber byName tmpstr).Only Inert := by
  cases tmpstr with
  | none => trivial
  | some text =>
      rw [parseId]
      split
      · exact only_exit trivial
      · trivial

theorem testJailAndExec_inert (jail exec : Option Text) :
    (testJailAndExec jail exec).Only Inert := by
  cases jail with
  | none => exact only_exit trivial
  | some jail =>
      cases exec with
      | none => exact only_exit trivial
      | some exec =>
          refine only_bind (only_exitIf trivial) fun _ => ?_
          refine only_bind (basicjailissafe_only (fun _ => trivial) jail) fun _ => ?_
          refine only_bind (only_exitIf trivial) fun _ => only_bind (only_call trivial) fun r => ?_
          cases r with
          | none => exact only_exit trivial
          | some sbuf => exact only_bind (only_exitIf trivial) fun _ => trivial

/-- Where the program is started, the ids are those found for the options. -/
theorem chrootlaunchMain_reaches {db : Accounts} {opts : List LaunchOpt} {operands argv : List Text}
    {fuel : Nat} {uid gid : UInt32} {path : Text} (hgives : Gives db opts uid gid)
    (h : Reaches withGroups (chrootlaunchMain db opts operands fuel) s (.execv path argv) s') :
    ∃ jail, s' = ((s.1.did (.chroot jail)).becomes (givenId uid) (givenId gid), s.2) := by
  obtain ⟨args, hargs, huid, hgid⟩ := hgives
  rw [chrootlaunchMain, hargs] at h
  have hno : ¬ Inert (.execv path argv) := id
  obtain ⟨uid', s₁, hparse, h⟩ := reaches_past (parseId_inert _ _ _) hno h
  obtain ⟨rfl, hs₁⟩ := parseId_returns huid hparse
  obtain ⟨gid', s₂, hparse, h⟩ := reaches_past (parseId_inert _ _ _) hno h
  obtain ⟨rfl, hs₂⟩ := parseId_returns hgid hparse
  obtain ⟨⟨jail, exec⟩, s₃, htest, h⟩ := reaches_past (testJailAndExec_inert _ _) hno h
  have hs₃ := returns_inert (testJailAndExec_inert _ _) htest
  rw [hs₃, hs₂, hs₁] at h
  exact ⟨jail, chrootlaunchEnter_reaches h⟩

end

theorem givenId_eq {id : UInt32} (h : id ≠ noId) : givenId id = some id.toNat := if_neg h

/-- For both ids given, all six are changed. -/
theorem becomes_given {p : Process} (uid gid : Nat) (h : p.euid = 0) :
    let p' := p.becomes (some uid) (some gid)
    (p'.ruid = uid ∧ p'.euid = uid ∧ p'.suid = uid) ∧
      (p'.rgid = gid ∧ p'.egid = gid ∧ p'.sgid = gid) := by
  simp [Process.becomes, Process.setgid, Process.setuid, Process.did, h]

/-- Without a user, the process stays root's. -/
theorem becomes_no_uid {p : Process} {gid : Option Nat} (h : p.euid = 0) :
    (p.becomes none gid).euid = 0 := by
  cases gid <;> simp [Process.becomes, Process.setgid, Process.did, h]

theorem becomes_no_gid {p : Process} {uid : Option Nat} :
    (p.becomes uid none).rgid = p.rgid := by
  cases uid with
  | none => rfl
  | some uid =>
      by_cases h : p.euid = 0 <;> simp [Process.becomes, Process.setuid, Process.did, h]

/-- A program that root starts with a user and a group has dropped all just where root had no
supplementary groups, and neither number is that of an option not given. -/
theorem chrootlaunch_drops_iff (db : Accounts) (opts : List LaunchOpt)
    (operands argv : List Text) (fuel : Nat) (uid gid : UInt32) (i : Invoker)
    (path : Text) (s : Process × List Nat) (hgives : Gives db opts uid gid)
    (h : Reaches withGroups (chrootlaunchMain db opts operands fuel) i.start
      (.execv path argv) s) :
    DropsAll i uid.toNat gid.toNat s ↔ i.groups = [] ∧ uid ≠ noId ∧ gid ≠ noId := by
  obtain ⟨jail, rfl⟩ := chrootlaunchMain_reaches hgives h
  have hroot : (i.process.did (.chroot jail)).euid = 0 := i.root
  constructor
  · intro hdrops
    refine ⟨List.eq_nil_iff_forall_not_mem.mpr fun g hg => hdrops.groups g hg hg, ?_, ?_⟩
    · rintro rfl
      have heuid := hdrops.uids.2.1
      rw [givenId, if_pos rfl] at heuid
      exact absurd (heuid.symm.trans (becomes_no_uid hroot)) (by decide)
    · rintro rfl
      have hrgid := hdrops.gids.1
      rw [show givenId noId = none from rfl] at hrgid
      rw [becomes_no_gid] at hrgid
      exact i.valid hrgid
  · intro hcond
    obtain ⟨hgroups, huser, hgroup⟩ := hcond
    rw [givenId_eq huser, givenId_eq hgroup]
    obtain ⟨huids, hgids⟩ := becomes_given uid.toNat gid.toNat hroot
    refine ⟨huids, hgids, ?_⟩
    rw [hgroups]
    exact nofun

def rootWith (groups : List Nat) : Invoker where
  process := ⟨0, 0, 0, 0, 0, 0, ⟨[], [], []⟩, []⟩
  groups := groups
  root := rfl
  valid := by decide

def sampleAccounts : Accounts where
  getpwuid _ := none
  getpwnam name := if name = "bob".toList then some 1000 else none
  getgrgid _ := none
  getgrnam name := if name = "users".toList then some 1000 else none

def sampleOptions : List LaunchOpt :=
  [.jail "/jail".toList, .user "bob".toList, .group "users".toList, .exec "/bin/sh".toList]

theorem sampleOptions_gives : Gives sampleAccounts sampleOptions 1000 1000 :=
  ⟨⟨some "/jail/".toList, some "bob".toList, some "users".toList, some "/bin/sh".toList⟩,
    by decide, by decide, by decide⟩

/-- A run in which nothing fails, and nothing sets the supplementary groups. -/
def launchAnswer (s : Process × List Nat) : (c : Call) → Option (Res c × (Process × List Nat))
  | .setgroups _ | .initgroups _ _ => none
  | .lstat path =>
      some (some ⟨if path = "/jail//bin/sh".toList then 0o100755 else 0o40755, 0, 0⟩, s)
  | c => (sampleAnswer s.1 c).map fun a => (a.1, (a.2, s.2))

theorem launchAnswer_withGroups (s : Process × List Nat) (c : Call) (r : Res c)
    (s' : Process × List Nat) (h : launchAnswer s c = some (r, s')) : withGroups s c r s' := by
  have hsample : (sampleAnswer s.1 c).map (fun a => (a.1, (a.2, s.2))) = some (r, s') →
      kernel s.1 c r s'.1 ∧ s'.2 = s.2 := by
    intro h
    obtain ⟨a, ha, heq⟩ := Option.map_eq_some_iff.mp h
    cases heq
    exact ⟨sampleAnswer_kernel s.1 _ a.1 a.2 ha, rfl⟩
  cases c with
  | setgroups gids => cases h
  | initgroups user gid => cases h
  | lstat path =>
      cases h
      exact ⟨rfl, rfl⟩
  | _ => exact hsample h

def sampleLaunched (groups : List Nat) : Process × List Nat :=
  (((rootWith groups).process.did (.chroot "/jail/".toList)).becomes (some 1000) (some 1000),
    groups)

theorem sample_reaches (groups : List Nat) (h : groups = [] ∨ groups = [0, 4]) :
    Reaches withGroups (chrootlaunchMain sampleAccounts sampleOptions [] 9)
      (rootWith groups).start (.execv "/bin/sh".toList ["/bin/sh".toList])
      (sampleLaunched groups) := by
  have hrun : (chrootlaunchMain sampleAccounts sampleOptions [] 9).drive launchAnswer
      isExecv (rootWith groups).start =
        some (.execv "/bin/sh".toList ["/bin/sh".toList], sampleLaunched groups) := by
    rcases h with rfl | rfl <;> decide +kernel
  exact reaches_of_drive launchAnswer_withGroups hrun

theorem chrootlaunch_drops_iff_sample :
    DropsAll (rootWith []) 1000 1000 (sampleLaunched []) ↔
      ([] : List Nat) = [] ∧ (1000 : UInt32) ≠ noId ∧ (1000 : UInt32) ≠ noId :=
  chrootlaunch_drops_iff sampleAccounts sampleOptions [] _ 9 1000 1000 (rootWith []) _ _
    sampleOptions_gives (sample_reaches [] (Or.inl rfl))

/-- The program runs with the supplementary groups of root. -/
theorem chrootlaunch_keeps_groups :
    Reaches withGroups (chrootlaunchMain sampleAccounts sampleOptions [] 9)
        (rootWith [0, 4]).start (.execv "/bin/sh".toList ["/bin/sh".toList])
        (sampleLaunched [0, 4]) ∧
      Gives sampleAccounts sampleOptions 1000 1000 ∧
      ¬ DropsAll (rootWith [0, 4]) 1000 1000 (sampleLaunched [0, 4]) := by
  refine ⟨sample_reaches _ (Or.inr rfl), sampleOptions_gives, fun h => ?_⟩
  exact h.groups 4 (by decide) (by decide)

end Jailkit.Wrapper
