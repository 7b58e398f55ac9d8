import Jailkit.JkLib.JailDir
import Jailkit.Wrapper.Privileges

/-!
The jails that jk_uchroot enters.
-/
namespace Jailkit.Wrapper

open Prog

abbrev Trace : Type := List ((c : Call) × Res c)

/-- Up to here the run has found the user, and then read this list of jails for the user. -/
def ListRead (b : Build) (memory : Memory) (allowed_jails : List Text) (t : Trace) : Prop :=
  ∃ t₁ user pw gr_name t₂ t₃ skip t₄,
    Returns traced userInfo t₁ (user, pw, gr_name) t₂ ∧
      Returns traced (readUchrootOptions b memory pw gr_name) t₃ (allowed_jails, skip) t₄ ∧
      t₂ <+: t₃ ∧ t₄ <+: t

/-- The call of `chroot` with this trace behind it is the entry into an allowed jail. -/
def EntersAllowed (b : Build) (memory : Memory) (jail : Text) (t : Trace) : Prop :=
  ∃ t₁ t₂ test allowed_jails,
    t = t₂ ++ [⟨.chdir jail, true⟩, ⟨.getcwd, some test⟩] ∧
      Returns traced (basicjailissafe jail) t₁ true t₂ ∧
      ListRead b memory allowed_jails t₁ ∧
      (∃ allowed ∈ allowed_jails, dirsEqual test allowed = true) ∧
      (jail = test ∨ jail = test ++ ['/'])

section

variable {σ : Type} {M : Machine Call Res σ} {s s' : σ}

theorem returns_exitIf {c : Prop} [Decidable c] {n : Nat} (h : Returns M (exitIf c n) s () s') :
    ¬ c ∧ s' = s := by
  rw [exitIf] at h
  split at h
  next =>
    cases h with
    | @call _ _ _ r _ _ _ _ _ => exact r.elim
  next hc => exact ⟨hc, (returns_pure.mp h).2⟩

theorem not_returns_exit {α : Type} {n : Nat} {a : α} : ¬ Returns M (exit n) s a s' := by
  intro h
  cases h with
  | @call _ _ _ r _ _ _ _ _ => exact r.elim

theorem endingSlash_getLast (src : Text) : (endingSlash src).getLast? = some '/' := by
  rw [endingSlash]
  split
  next h => exact h
  next => exact List.getLast?_concat

/-- Whatever is given as the jail, it gets a slash at its end. -/
theorem getoptLoop_slash {fuel : Nat} {jail executable executable' : Option Text}
    {jail' : Text} (hslash : ∀ j ∈ jail, j.getLast? = some '/')
    (h : Returns M (getoptLoop jail executable fuel) s (some jail', executable') s') :
    jail'.getLast? = some '/' := by
  induction fuel generalizing jail executable s with
  | zero =>
      cases h with
      | @call _ _ _ r _ _ _ _ _ => exact r.elim
  | succ fuel ih =>
      rw [getoptLoop, returns_bind_iff] at h
      obtain ⟨opt, s₁, -, h⟩ := h
      cases opt with
      | jail optarg =>
          refine ih ?_ h
          rintro j ⟨⟩
          exact endingSlash_getLast optarg
      | executable optarg => exact ih hslash h
      | help | version => exact absurd h not_returns_exit
      | other => exact ih hslash h
      | done =>
          have heq := (returns_pure.mp h).1
          exact hslash jail' (congrArg Prod.fst heq).symm

/-- The jail is the one of the options; what runs behind these keeps it. -/
theorem uchrootArgs_returns {fuel : Nat} {args : UchrootArgs}
    (h : Returns M (uchrootArgs fuel) s args s') :
    ∃ (executable : Option Text) (s₁ : σ) (rest : Cmd UchrootArgs),
      Returns M (getoptLoop none none fuel) s (some args.jail, executable) s₁ ∧
        Returns M rest s₁ args s' := by
  rw [uchrootArgs, returns_bind_iff] at h
  obtain ⟨⟨jail, executable⟩, s₁, hopts, hrest⟩ := h
  have h := hrest
  rw [returns_bind_iff] at h
  obtain ⟨operands, s₂, -, h⟩ := h
  cases jail with
  | none => exact absurd h not_returns_exit
  | some jail =>
      cases executable with
      | none => exact absurd h not_returns_exit
      | some executable =>
          rw [returns_bind_iff] at h
          obtain ⟨r, s₃, -, h⟩ := h
          rw [returns_bind_iff] at h
          obtain ⟨_, s₄, -, h⟩ := h
          have hjail : args.jail = jail := congrArg UchrootArgs.jail (returns_pure.mp h).1
          rw [hjail]
          exact ⟨some executable, s₁, _, hopts, hrest⟩

theorem uchrootArgs_slash {fuel : Nat} {args : UchrootArgs}
    (h : Returns M (uchrootArgs fuel) s args s') : args.jail.getLast? = some '/' := by
  obtain ⟨executable, s₁, rest, hopts, -⟩ := uchrootArgs_returns h
  exact getoptLoop_slash (by simp) hopts

end

theorem enterDirectory_traced {jail : Text} {t t' : Trace}
    (h : Returns traced (enterDirectory jail) t () t') :
    ∃ test, t' = t ++ [⟨.chdir jail, true⟩, ⟨.getcwd, some test⟩] ∧
      dirsEqual jail test = true := by
  rw [enterDirectory, returns_bind_iff] at h
  obtain ⟨r, t₁, hchdir, h⟩ := h
  have hchdir : t₁ = t ++ [⟨.chdir jail, r⟩] := returns_perform.mp hchdir
  rw [returns_bind_iff] at h
  obtain ⟨_, t₂, hexit, h⟩ := h
  obtain ⟨hr, ht₂⟩ := returns_exitIf hexit
  rw [returns_bind_iff] at h
  obtain ⟨cwd, t₃, hcwd, h⟩ := h
  have hcwd : t₃ = t₂ ++ [⟨.getcwd, cwd⟩] := returns_perform.mp hcwd
  cases cwd with
  | none => exact absurd h not_returns_exit
  | some test =>
      obtain ⟨hequal, ht'⟩ := returns_exitIf h
      have hr : r = true := by simpa using hr
      refine ⟨test, ?_, by simpa using hequal⟩
      rw [ht', hcwd, ht₂, hchdir, hr, List.append_assoc]
      rfl

theorem jail_of_dirsEqual {jail test : Text} (hslash : jail.getLast? = some '/')
    (h : dirsEqual jail test = true) : jail = test ∨ jail = test ++ ['/'] := by
  rcases (dirsEqual_iff jail test).mp h with h | ⟨-, hno⟩ | ⟨h, -⟩
  · exact Or.inl h
  · exact absurd hslash hno
  · exact Or.inr h

theorem uchrootMain_enters (b : Build) (memory : Memory) (fuel : Nat) (argv : List Text)
    {jail : Text} {t : Trace}
    (h : Reaches traced (uchrootMain b memory fuel argv) [] (.chroot jail) t) :
    EntersAllowed b memory jail t ∧
      ∃ t₁ args t₂, Returns traced (uchrootArgs fuel) t₁ args t₂ ∧ args.jail = jail ∧ t₂ <+: t := by
  have hnot : ¬ Harmless (.chroot jail) := id
  obtain ⟨_, t₁, -, h⟩ := reaches_past (only_exitIf trivial) hnot h
  obtain ⟨useCapabilities, t₂, -, h⟩ := reaches_past (setuidCheck_harmless b) hnot h
  obtain ⟨⟨user, pw, gr_name⟩, t₃, huser, h⟩ := reaches_past userInfo_harmless hnot h
  obtain ⟨args, t₄, hargs, h⟩ := reaches_past (uchrootArgs_harmless fuel) hnot h
  obtain ⟨⟨allowed_jails, skip⟩, t₅, hread, h⟩ :=
    reaches_past (readUchrootOptions_harmless b memory _ _) hnot h
  obtain ⟨_, t₆, hclosed, h⟩ := reaches_past (closeDescriptors_harmless fuel) hnot h
  obtain ⟨_, t₇, hallowed, h⟩ := reaches_past (only_exitIf trivial) hnot h
  obtain ⟨safe, t₈, hsafe, h⟩ := reaches_past (basicjailissafe_harmless _) hnot h
  obtain ⟨_, t₉, hexit, h⟩ := reaches_past (only_exitIf trivial) hnot h
  obtain ⟨_, t₁₀, henter, h⟩ := reaches_past (enterDirectory_harmless _) hnot h
  rcases reaches_bind_cases h with h | ⟨r, t₁₁, -, h⟩
  · obtain ⟨hjail, ht⟩ := reaches_perform.mp h
    obtain rfl : jail = args.jail := Call.chroot.inj hjail
    obtain ⟨test, henter, hequal⟩ := enterDirectory_traced henter
    obtain ⟨hpassed, rfl⟩ := returns_exitIf hexit
    have hpassed : safe = true := by simpa using hpassed
    subst hpassed
    obtain ⟨hany, rfl⟩ := returns_exitIf hallowed
    simp only [Bool.not_eq_eq_eq_not, Bool.not_true, Bool.not_eq_false, List.any_eq_true] at hany
    obtain ⟨allowed, hmem, hallowed⟩ := hany
    have hentered : t = t₉ ++ [⟨.chdir args.jail, true⟩, ⟨.getcwd, some test⟩] := ht.trans henter
    constructor
    · refine ⟨t₇, t₉, test, allowed_jails, hentered, hsafe, ?_, ⟨allowed, hmem, ?_⟩, ?_⟩
      · exact ⟨t₂, user, pw, gr_name, t₃, t₄, skip, t₅, huser, hread, trace_grows hargs,
          trace_grows hclosed⟩
      · exact dirsEqual_trans (dirsEqual_symm hequal) hallowed
      · exact jail_of_dirsEqual (uchrootArgs_slash hargs) hequal
    · refine ⟨t₃, args, t₄, hargs, rfl, ?_⟩
      have hread' : t₄ <+: t₇ := (trace_grows hread).trans (trace_grows hclosed)
      rw [hentered]
      exact (hread'.trans (trace_grows hsafe)).trans (List.prefix_append _ _)
  · obtain ⟨_, _, -, h⟩ := reaches_past (only_exitIf trivial) hnot h
    have hno : ¬ Quiet (.chroot jail) := fun hq => (hq jail).1 rfl
    obtain ⟨_, _, -, h⟩ := reaches_past (dropPrivileges_quiet b _ _) hno h
    obtain ⟨_, _, -, h⟩ := reaches_past (uchrootInjail_harmless _ _ _ _) hnot h
    rcases reaches_bind_cases h with h | ⟨_, _, -, h⟩
    · cases (reaches_perform.mp h).1
    · exact absurd h (not_reaches_of_only (only_exit trivial) hnot)

/-- `dirs_equal` is an equivalence, and jk_uchroot enters allowed jails only. -/
theorem uchroot_enters_allowed :
    (Equivalence fun a b : {s : Text // s ≠ []} => dirsEqual a b = true) ∧
    (∀ a b : {s : Text // s ≠ []}, dirsEqual a b = true ↔
      a.1 = b ∨ (b = a.1 ++ ['/'] ∧ a.1.getLast? ≠ some '/') ∨
        (a.1 = b ++ ['/'] ∧ b.1.getLast? ≠ some '/')) ∧
    ∀ (b : Build) (memory : Memory) (fuel : Nat) (argv : List Text) (jail : Text) (t : Trace),
      Reaches traced (uchrootMain b memory fuel argv) [] (.chroot jail) t →
        EntersAllowed b memory jail t := by
  refine ⟨⟨fun a => dirsEqual_refl a, dirsEqual_symm, dirsEqual_trans⟩, ?_, ?_⟩
  · exact fun a b => dirsEqual_iff a b
  · exact fun b memory fuel argv _ _ h => (uchrootMain_enters b memory fuel argv h).1

/-- The command line asks for `/jail`, which is the second entry of the list. -/
def uchrootReply (t : Trace) : (c : Call) → Option (Res c)
  | .getoptLong =>
      let given := [Opt.jail "/jail".toList, .executable "/bin/sh".toList]
      some (given.getD (t.countP fun e => e.1 = .getoptLong) .done)
  | .newIniparser _ => some (some "[DEFAULT]\nallowed_jails = /srv/, /jail\n".toList)
  | c => (sampleAnswer sampleStart c).map Prod.fst

def uchrootAnswer (t : Trace) (c : Call) : Option (Res c × Trace) :=
  (uchrootReply t c).map fun r => (r, t ++ [⟨c, r⟩])

theorem uchrootAnswer_traced (t : Trace) (c : Call) (r : Res c) (t' : Trace)
    (h : uchrootAnswer t c = some (r, t')) : traced t c r t' := by
  obtain ⟨_, _, heq⟩ := Option.map_eq_some_iff.mp h
  cases heq
  rfl

theorem uchroot_enters_allowed_sample :
    ∃ t, Reaches traced (uchrootMain sampleBuild (fun _ _ => nul) 9 ["jk_uchroot".toList]) []
        (.chroot "/jail/".toList) t ∧
      EntersAllowed sampleBuild (fun _ _ => nul) "/jail/".toList t := by
  have hrun : ((uchrootMain sampleBuild (fun _ _ => nul) 9 ["jk_uchroot".toList]).drive
      uchrootAnswer (fun c => c == .chroot "/jail/".toList) []).any
        (fun d => d.1 == .chroot "/jail/".toList) = true := by decide +kernel
  obtain ⟨d, t, hr, hd⟩ := reaches_of_any uchrootAnswer_traced hrun
  have hd : d = .chroot "/jail/".toList := beq_iff_eq.mp hd
  rw [hd] at hr
  exact ⟨t, hr, uchroot_enters_allowed.2.2 _ _ _ _ _ _ hr⟩

end Jailkit.Wrapper
