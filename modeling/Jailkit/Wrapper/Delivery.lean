import Jailkit.Wrapper.Login

/-!
Mail for a user whom jk_jailuser has put into a jail. jk_procmailwrapper splits the home as
jk_chrootsh does, but it compares the home inside the jail byte for byte.
-/
namespace Jailkit.Wrapper

open Prog JkLib Tools PasswdParser

/-- `getpwuid` gives an entry of the number it was asked for. -/
def SameUid : (c : Call) → Res c → Prop
  | .getpwuid uid, r => ∀ pw, r = some pw → pw.pw_uid = uid
  | _, _ => True

def Login.system (L : Login) : Machine Call Res Session := fun s c r s' =>
  L.machine s c r s' ∧ SameUid c r

/-- Nothing is started but the procmail of the jail, for the user, in the home that the jail's
passwd file has as well. -/
def Login.Delivers (L : Login) (b : Build) (home newhome : Text) (args : List Text)
    (s : Session) : Call → Prop
  | .execv path argv => path = b.procmailpath ∧ argv = path :: args ∧ L.real.pw_uid ≠ 0 ∧
      home = newhome ∧ s = ⟨some L.jaildir, some newhome, some newhome, some L.real.pw_name⟩
  | .execve _ _ => False
  | _ => True

/-- Calls that start nothing and leave the root alone. -/
def Startless : Call → Prop
  | .chroot _ | .execv _ _ | .execve _ _ => False
  | _ => True

section

variable {α β : Type} {L : Login} {b : Build} {home newhome : Text} {args : List Text}
  {s : Session}

theorem delivers_startless {c : Call} (hc : Startless c) : L.Delivers b home newhome args s c := by
  cases c with
  | execv path argv => exact hc.elim
  | execve path argv => exact hc.elim
  | _ => trivial

theorem closeRetry_startless (i fuel : Nat) : (closeRetry i fuel).Only Startless := by
  induction fuel with
  | zero => exact ⟨trivial, fun r => r.elim⟩
  | succ fuel ih =>
      rw [closeRetry]
      refine only_bind (only_call trivial) fun r => ?_
      split
      · exact ih
      · trivial

theorem closeDownTo_startless (fuel i : Nat) : (closeDownTo fuel i).Only Startless := by
  induction i with
  | zero => trivial
  | succ i ih =>
      rw [closeDownTo]
      split
      · exact only_bind (closeRetry_startless _ fuel) fun _ => ih
      · trivial

theorem dropToUser_startless (pw : Passwd) : (dropToUser pw).Only Startless := by
  refine only_bind ?_ fun _ => only_bind (only_call trivial) fun gid => ?_
  · exact only_bind (only_call trivial) fun gid =>
      only_bind (only_call trivial) fun done => only_exitIf trivial
  · refine only_bind (only_call trivial) fun done => only_bind (only_exitIf trivial) fun _ => ?_
    exact only_bind (only_call trivial) fun uid =>
      only_bind (only_call trivial) fun done => only_exitIf trivial

/-- A startless part goes by, whatever it is answered. -/
theorem deliver_past {p : Cmd α} {f : α → Cmd β} {Q : β → Session → Prop} (hp : p.Only Startless)
    (hf : ∀ a s', s'.root = s.root →
      (f a).Always L.system (L.Delivers b home newhome args) Q s') :
    (p >>= f).Always L.system (L.Delivers b home newhome args) Q s := by
  rw [always_bind]
  refine always_mono (always_of_only (I := fun s' => s'.root = s.root) hp ?_ ?_ rfl) hf
  · intro s₁ c r s' hc hs h
    rw [h.1.2, after_root, hs]
    rintro path rfl
    exact hc
  · exact fun s₁ c hc _ => delivers_startless hc

theorem deliver_ask {c : Call} {f : Res c → Cmd β} {Q : β → Session → Prop} (hc : Startless c)
    (hf : ∀ r, L.answers s c r → SameUid c r →
      (f r).Always L.system (L.Delivers b home newhome args) Q (s.after c r)) :
    (perform c >>= f).Always L.system (L.Delivers b home newhome args) Q s := by
  refine ⟨delivers_startless hc, fun r s' h => ?_⟩
  rw [h.1.2]
  exact hf r h.1.1 h.2

theorem deliver_pass {d : Prop} [Decidable d] {n : Nat} {f : Unit → Cmd β}
    {Q : β → Session → Prop}
    (hf : ¬ d → (f ()).Always L.system (L.Delivers b home newhome args) Q s) :
    (exitIf d n >>= f).Always L.system (L.Delivers b home newhome args) Q s := by
  rw [exitIf]
  split
  next => exact ⟨trivial, fun r => r.elim⟩
  next hd => exact hf hd

theorem deliver_end {n : Nat} {Q : β → Session → Prop} :
    (exit n : Cmd β).Always L.system (L.Delivers b home newhome args) Q s :=
  ⟨trivial, fun r => r.elim⟩

theorem deliver_crash {Q : β → Session → Prop} :
    (crash : Cmd β).Always L.system (L.Delivers b home newhome args) Q s :=
  ⟨trivial, fun r => r.elim⟩

theorem procmailJail_split {jaildir : Text}
    (hsplit : getjaildir L.real.pw_dir = some (jaildir, newhome)) :
    (procmailJail L.real).Always L.system (L.Delivers b home newhome args)
      (fun jail s' => jail.2 = (jaildir, newhome) ∧ s'.root = s.root) s := by
  refine deliver_past (only_call trivial) fun gid s₁ hs₁ => ?_
  refine deliver_past (only_call trivial) fun gr s₂ hs₂ => ?_
  cases gr with
  | none => exact deliver_end
  | some gr_name =>
      refine deliver_past (only_call trivial) fun _ s₃ hs₃ => ?_
      refine deliver_past (only_call trivial) fun gid s₄ hs₄ => ?_
      refine deliver_pass fun _ => deliver_pass fun _ => ?_
      rw [hsplit]
      refine deliver_past (only_call trivial) fun done s₅ hs₅ => ?_
      refine deliver_pass fun _ => deliver_past (only_call trivial) fun test s₆ hs₆ => ?_
      cases test with
      | none => exact deliver_crash
      | some test =>
          refine deliver_pass fun _ => deliver_past (only_call trivial) fun sbuf s₇ hs₇ => ?_
          refine deliver_pass fun _ => deliver_past (only_call trivial) fun sbuf s₈ hs₈ => ?_
          refine deliver_past (only_call trivial) fun uid s₉ hs₉ => ?_
          refine deliver_past (only_call trivial) fun gid s₁₀ hs₁₀ => ?_
          refine deliver_pass fun _ => deliver_pass fun _ => ⟨rfl, ?_⟩
          rw [hs₁₀, hs₉, hs₈, hs₇, hs₆, hs₅, hs₄, hs₃, hs₂, hs₁]

theorem requireSetuidRoot_user :
    requireSetuidRoot.Always L.system (L.Delivers b home newhome args)
      (fun _ s' => L.real.pw_uid ≠ 0 ∧ s'.root = s.root) s := by
  refine deliver_past (only_call trivial) fun euid s₁ hs₁ => deliver_pass fun _ => ?_
  refine deliver_ask trivial fun uid huid _ => ?_
  have huid : uid = L.real.pw_uid := huid
  rw [exitIf]
  split
  next => exact deliver_end
  next hroot => exact ⟨huid ▸ hroot, hs₁⟩

theorem startProcmail_delivers {pw : Passwd} (argv : List Text) (huid : L.real.pw_uid ≠ 0)
    (hhome : home = newhome) (hname : pw.pw_name = L.real.pw_name)
    (hroot : s.root = some L.jaildir) :
    (startProcmail b pw newhome argv).Always L.system (L.Delivers b home newhome argv.tail)
      (fun _ _ => True) s := by
  refine deliver_past (only_call trivial) fun sbuf s₁ hs₁ => ?_
  refine deliver_ask trivial fun _ _ _ => deliver_ask trivial fun _ _ _ => ?_
  refine deliver_ask trivial fun done _ _ => deliver_pass fun hdone => ?_
  have hdone : done = true := by simpa using hdone
  subst hdone
  refine ⟨⟨rfl, rfl, huid, hhome, ?_⟩, fun _ s₂ h₂ => deliver_end⟩
  rw [← hname, ← hroot, ← hs₁]
  rfl

end

section

variable {L : Login} {b : Build} {newhome shell : Text} {args : List Text} {s : Session}
  {db : Databases} {file : PyFile} {jail : JailPath} {user : Name} {pw : Account}

/-- Only the entry in the jail's file can have the home that is looked for. -/
theorem injailPasswd_home (h : L.Made db file jail user shell pw) (gr_name : Text)
    (hreal : L.real.pw_dir ≠ newhome) :
    (injailPasswd L.real gr_name newhome).Always L.system
      (L.Delivers b (addusertojailHome jail.text pw.pw_dir) newhome args)
      (fun inpw s' => inpw.pw_name = L.real.pw_name ∧
        addusertojailHome jail.text pw.pw_dir = newhome ∧ s'.root = s.root) s := by
  refine deliver_ask trivial fun uid huid _ => ?_
  refine deliver_ask trivial fun r hr _ => ?_
  refine deliver_past (only_call trivial) fun gid s₁ hs₁ => ?_
  refine deliver_past (only_call trivial) fun gr s₂ hs₂ => ?_
  cases r with
  | none => exact deliver_end
  | some inpw =>
      cases gr with
      | none => exact deliver_end
      | some ingr_name =>
          refine deliver_pass fun hnames => deliver_pass fun hdir => ?_
          have hname : inpw.pw_name = L.real.pw_name := not_not.mp (not_or.mp hnames).1
          have hdir : inpw.pw_dir = newhome := not_not.mp hdir
          refine ⟨hname, ?_, hs₂.trans hs₁⟩
          rcases h.known (hr inpw rfl) hname with hsame | hsame
          · exact absurd (hsame ▸ hdir) hreal
          · rw [← hdir, hsame]
            rfl

theorem homeInJail_getLast? {dir home h : Text} (hin : HomeInJail dir home h) (hne : h ≠ []) :
    h.getLast? = home.getLast? := by
  obtain ⟨c, hc⟩ := Option.ne_none_iff_exists'.mp (mt List.getLast?_eq_none_iff.mp hne)
  cases hin with
  | marked hhome _ => rw [hhome, List.getLast?_append, List.getLast?_cons, List.getLast?_cons, hc]; rfl
  | inside hhome _ _ => rw [hhome, List.getLast?_append, hc]; rfl
  | outside _ => rfl

theorem addusertojailHome_rest {home rest : Text} (hlast : jail.dir.getLast? ≠ some '/')
    (hin : HomeInJail jail.dir home rest) : addusertojailHome jail.text home = rest := by
  rw [addusertojailHome_eq jail home ((inJail_eq_iff jail _ hlast).mpr ⟨rest, hin⟩),
    restOf_eq jail hlast hin]

/-- A home that was changed lost the slash at its end, which the jail's file keeps. -/
theorem Login.Splits.changed_iff (h : L.Splits jail pw newhome)
    (hhome : L.real.pw_dir = jailuserHome jail.text pw.pw_dir) :
    addusertojailHome jail.text pw.pw_dir = newhome ↔ pw.pw_dir.getLast? ≠ some '/' := by
  have hnew : newhome = striptrailingslash (restOf jail pw.pw_dir) := by
    have heq := (h.home.symm.trans hhome).trans (jailuserHome_eq jail pw.pw_dir)
    simpa using heq
  have hequal := h.equal
  have hin : ∃ rest, HomeInJail jail.dir pw.pw_dir rest := by
    by_contra hnot
    rw [hnew, not_dirsEqual_beginning jail pw.pw_dir h.length h.last hnot] at hequal
    cases hequal
  obtain ⟨rest, hin⟩ := hin
  rw [restOf_eq jail h.last hin] at hnew
  rw [addusertojailHome_rest h.last hin, hnew]
  have hne : rest ≠ [] := by
    intro hnil
    have habs := h.absolute
    rw [hnew, hnil] at habs
    cases habs
  rw [← homeInJail_getLast? hin hne]
  rcases striptrailingslash_cases rest with ⟨hsame, hnot⟩ | hslash
  · exact iff_of_true hsame.symm hnot
  · refine iff_of_false (fun heq => ?_) (not_not_intro ?_)
    · rw [← heq] at hslash
      simp at hslash
    · rw [hslash]
      simp

/-- The two homes are the same text unless jk_jailuser has taken a slash off one of them. -/
theorem Login.Splits.same_iff (h : L.Splits jail pw newhome)
    (hmade : L.Made db file jail user shell pw) :
    addusertojailHome jail.text pw.pw_dir = newhome ↔
      (pw.pw_dir.getLast? = some '/' → L.real.pw_dir = pw.pw_dir) := by
  have hmarked : L.real.pw_dir = pw.pw_dir → addusertojailHome jail.text pw.pw_dir = newhome :=
    fun hleft => addusertojailHome_rest h.last (.marked (hleft.symm.trans h.home) h.absolute)
  rcases hmade.home with hhome | ⟨-, hleft⟩
  · have hchanged := h.changed_iff hhome
    constructor
    · exact fun hsame hslash => absurd hslash (hchanged.mp hsame)
    · intro himp
      by_cases hslash : pw.pw_dir.getLast? = some '/'
      · exact hmarked (himp hslash)
      · exact hchanged.mpr hslash
  · exact iff_of_true (hmarked hleft) fun _ => hleft

theorem userIsChrooted_made (h : L.Made db file jail user shell pw) :
    userIsChrooted L.real.pw_dir = true := by
  obtain ⟨r, hr⟩ := h.marked
  rw [userIsChrooted, hr, List.contains_iff_mem]
  simp

theorem procmailMain_always (h : L.Made db file jail user shell pw) (fuel : Nat)
    (argv : List Text) (hsplits : L.Splits jail pw newhome) (hs : s.root = none) :
    (procmailMain b fuel argv).Always L.system
      (L.Delivers b (addusertojailHome jail.text pw.pw_dir) newhome argv.tail)
      (fun _ _ => True) s := by
  refine deliver_ask trivial fun uid huid _ => deliver_ask trivial fun r hr hsame => ?_
  cases r with
  | none => exact deliver_crash
  | some found =>
      have hfound : found = L.real := by
        have hnumber : found.pw_uid = L.real.pw_uid := (hsame found rfl).trans huid
        rcases hr found rfl (Or.inr hnumber) with hfound | ⟨hinside, -⟩
        · exact hfound
        · exact absurd (hinside.symm.trans hs) (by simp)
      rw [hfound]
      dsimp only
      rw [if_neg (by simp [userIsChrooted_made h])]
      refine deliver_pass fun _ => deliver_past (only_call trivial) fun limit s₁ hs₁ => ?_
      refine deliver_past (closeDownTo_startless fuel _) fun _ s₂ hs₂ => ?_
      rw [always_bind]
      refine always_mono requireSetuidRoot_user fun _ s₃ hnonroot => ?_
      rw [always_bind]
      refine always_mono (procmailJail_split hsplits.found) fun found s₄ hfound => ?_
      obtain ⟨gr_name, jaildir, newhome'⟩ := found
      obtain ⟨rfl, rfl⟩ := Prod.mk.inj hfound.1
      refine ⟨trivial, fun done s₅ h₅ => deliver_pass fun hdone => ?_⟩
      have hdone : done = true := by simpa using hdone
      have hroot : s₅.root = some L.jaildir := by
        rw [h₅.1.2, hdone]
        rfl
      -- from here on the jail is the root
      refine deliver_past (dropToUser_startless _) fun _ s₆ hs₆ => ?_
      rw [always_bind]
      refine always_mono (injailPasswd_home h gr_name hsplits.ne) fun inpw s₇ hin => ?_
      exact startProcmail_delivers argv hnonroot.1 hin.2.1 hin.1 (hin.2.2.trans (hs₆.trans hroot))

/-- The run goes on with an answer that the system may give. -/
theorem returns_answer {β : Type} {c : Call} (r : Res c) {f : Res c → Cmd β} {a : β}
    {Q : Session → Prop} (hr : L.answers s c r) (hsame : SameUid c r)
    (h : ∃ s', Returns L.system (f r) (s.after c r) a s' ∧ Q s') :
    ∃ s', Returns L.system (perform c >>= f) s a s' ∧ Q s' := by
  obtain ⟨s', hret, hs'⟩ := h
  exact ⟨s', .call ⟨⟨hr, rfl⟩, hsame⟩ hret, hs'⟩

theorem exitIf_not {d : Prop} [Decidable d] {n : Nat} (hd : ¬ d) :
    (exitIf d n : Cmd Unit) = pure () := if_neg hd

theorem returns_pass {β : Type} {d : Prop} [Decidable d] {n : Nat} {f : Unit → Cmd β} {a : β}
    {Q : Session → Prop} (hd : ¬ d) (h : ∃ s', Returns L.system (f ()) s a s' ∧ Q s') :
    ∃ s', Returns L.system (exitIf d n >>= f) s a s' ∧ Q s' := by
  rw [exitIf_not hd]
  exact h

theorem returns_then {α β : Type} {p : Cmd α} {f : α → Cmd β} {a : α} {e : β}
    {P Q : Session → Prop} (hp : ∃ s₁, Returns L.system p s a s₁ ∧ P s₁)
    (hf : ∀ s₁, P s₁ → ∃ s', Returns L.system (f a) s₁ e s' ∧ Q s') :
    ∃ s', Returns L.system (p >>= f) s e s' ∧ Q s' := by
  obtain ⟨s₁, hp, hs₁⟩ := hp
  obtain ⟨s', hf, hs'⟩ := hf s₁ hs₁
  exact ⟨s', returns_bind hp hf, hs'⟩

theorem requireSetuidRoot_returns (huid : L.real.pw_uid ≠ 0) :
    ∃ s', Returns L.system requireSetuidRoot s () s' ∧ s'.root = s.root := by
  refine returns_answer (0 : Nat) trivial trivial (returns_pass (by simp) ?_)
  refine returns_answer (c := .getuid) L.real.pw_uid rfl trivial ?_
  rw [exitIf_not huid]
  exact ⟨s, .ret, rfl⟩

theorem procmailJail_returns {jaildir : Text}
    (hsplit : getjaildir L.real.pw_dir = some (jaildir, newhome))
    (hdot : '.' ∈ L.real.pw_dir) :
    ∃ s', Returns L.system (procmailJail L.real) s ([], jaildir, newhome) s' ∧ s'.root = s.root := by
  have hsafe := testsafepath_spec ⟨0o40755, L.real.pw_uid, L.real.pw_gid⟩ L.real.pw_uid L.real.pw_gid
  refine returns_answer L.real.pw_gid trivial trivial ?_
  refine returns_answer (some []) trivial trivial ?_
  refine returns_answer () trivial trivial ?_
  refine returns_answer L.real.pw_gid trivial trivial (returns_pass (by simp) ?_)
  refine returns_pass (by simp [hdot, List.ne_nil_of_mem hdot]) ?_
  rw [hsplit]
  refine returns_answer true trivial trivial (returns_pass (by simp) ?_)
  refine returns_answer (some jaildir) trivial trivial (returns_pass (by simp) ?_)
  refine returns_answer (some ⟨0o40755, 0, 0⟩) trivial trivial (returns_pass (by decide) ?_)
  refine returns_answer (some ⟨0o40755, L.real.pw_uid, L.real.pw_gid⟩) trivial trivial ?_
  refine returns_answer (c := .getuid) L.real.pw_uid rfl trivial ?_
  refine returns_answer L.real.pw_gid trivial trivial ?_
  refine returns_pass ?_ (returns_pass ?_ ⟨_, .ret, rfl⟩)
  · rw [hsafe.1]
    simp [Stat.isLnk, Stat.format]
  · rw [hsafe.2.2.2.2.2.1]
    simp

theorem becomeGroup_returns :
    ∃ s', Returns L.system becomeGroup s () s' ∧ s'.root = s.root := by
  refine returns_answer (0 : Nat) trivial trivial (returns_answer true trivial trivial ?_)
  rw [exitIf_not (by simp)]
  exact ⟨_, .ret, rfl⟩

theorem becomeUser_returns :
    ∃ s', Returns L.system becomeUser s () s' ∧ s'.root = s.root := by
  refine returns_answer (c := .getuid) L.real.pw_uid rfl trivial ?_
  refine returns_answer true trivial trivial ?_
  rw [exitIf_not (by simp)]
  exact ⟨_, .ret, rfl⟩

theorem dropToUser_returns (pw : Passwd) :
    ∃ s', Returns L.system (dropToUser pw) s () s' ∧ s'.root = s.root := by
  refine returns_then becomeGroup_returns fun s₁ hs₁ => ?_
  refine returns_answer (0 : Nat) trivial trivial (returns_answer true trivial trivial ?_)
  refine returns_pass (by simp) ?_
  rw [← hs₁]
  exact becomeUser_returns

theorem Login.Made.entry_mem (h : L.Made db file jail user shell pw) :
    ∃ line ∈ L.passwd.lines, libcEntry line = some (jailEntry jail.text user.text shell pw) := by
  refine ⟨_, ?_, libcEntry_entry h.readable⟩
  rw [lines_registered h.registered h.readable]
  exact List.mem_append_right _ (List.mem_singleton.mpr rfl)

theorem injailPasswd_returns (h : L.Made db file jail user shell pw)
    (hsame : addusertojailHome jail.text pw.pw_dir = newhome) (hroot : s.root = some L.jaildir) :
    ∃ s', Returns L.system (injailPasswd L.real [] newhome) s
      (jailEntry jail.text user.text shell pw) s' ∧ s'.root = s.root := by
  have hknown : L.Known s (jailEntry jail.text user.text shell pw) :=
    fun _ => Or.inr ⟨hroot, h.entry_mem⟩
  refine returns_answer (c := .getuid) L.real.pw_uid rfl trivial ?_
  refine returns_answer (c := .getpwuid _) (some (jailEntry jail.text user.text shell pw)) ?_ ?_ ?_
  · intro pw' hpw'
    rwa [← Option.some.inj hpw']
  · intro pw' hpw'
    rw [← Option.some.inj hpw', h.uid]
    rfl
  · refine returns_answer (0 : Nat) trivial trivial ?_
    refine returns_answer (some []) trivial trivial ?_
    refine returns_pass ?_ (returns_pass (not_not_intro hsame) ⟨_, .ret, rfl⟩)
    simp [jailEntry, h.name]

theorem reaches_answer {β : Type} {c d : Call} (r : Res c) {f : Res c → Cmd β}
    (hr : L.answers s c r) (hsame : SameUid c r)
    (h : ∃ s', Reaches L.system (f r) (s.after c r) d s') :
    ∃ s', Reaches L.system (perform c >>= f) s d s' := by
  obtain ⟨s', hreach⟩ := h
  exact ⟨s', .later ⟨⟨hr, rfl⟩, hsame⟩ hreach⟩

theorem reaches_pass {β : Type} {e : Prop} [Decidable e] {n : Nat} {f : Unit → Cmd β} {d : Call}
    (he : ¬ e) (h : ∃ s', Reaches L.system (f ()) s d s') :
    ∃ s', Reaches L.system (exitIf e n >>= f) s d s' := by
  rw [exitIf_not he]
  exact h

theorem reaches_then {α β : Type} {p : Cmd α} {f : α → Cmd β} {a : α} {d : Call}
    {P : Session → Prop} (hp : ∃ s₁, Returns L.system p s a s₁ ∧ P s₁)
    (hf : ∀ s₁, P s₁ → ∃ s', Reaches L.system (f a) s₁ d s') :
    ∃ s', Reaches L.system (p >>= f) s d s' := by
  obtain ⟨s₁, hp, hs₁⟩ := hp
  obtain ⟨s', hf⟩ := hf s₁ hs₁
  exact ⟨s', reaches_bind_right hp hf⟩

/-- A run in which no call fails brings the mail to the user. -/
theorem procmailMain_reaches (h : L.Made db file jail user shell pw) (fuel : Nat)
    (argv : List Text) (hargv : programName argv ∈ procmailNames.map String.toList)
    (hsplit : getjaildir L.real.pw_dir = some (L.jaildir, newhome)) (huid : L.real.pw_uid ≠ 0)
    (hsame : addusertojailHome jail.text pw.pw_dir = newhome) :
    ∃ s', Reaches L.system (procmailMain b fuel argv) s
      (.execv b.procmailpath (b.procmailpath :: argv.tail)) s' := by
  have hchrooted := userIsChrooted_made h
  refine reaches_answer (c := .getuid) L.real.pw_uid rfl trivial ?_
  refine reaches_answer (c := .getpwuid _) (some L.real) ?_ ?_ ?_
  · exact fun found hfound _ => Or.inl (Option.some.inj hfound).symm
  · exact fun found hfound => by rw [← Option.some.inj hfound]
  dsimp only
  rw [if_neg (by simp [hchrooted])]
  refine reaches_pass (not_not_intro hargv) ?_
  refine reaches_answer (0 : Nat) trivial trivial ?_
  refine reaches_then ⟨_, .ret, trivial⟩ fun s₁ (_ : True) => ?_
  refine reaches_then (requireSetuidRoot_returns huid) fun s₂ _ => ?_
  refine reaches_then (procmailJail_returns hsplit (by simpa [userIsChrooted] using hchrooted))
    fun s₃ _ => ?_
  refine reaches_answer true trivial trivial (reaches_pass (by simp) ?_)
  refine reaches_then (dropToUser_returns _) fun s₄ hs₄ => ?_
  refine reaches_then (injailPasswd_returns h hsame hs₄) fun s₅ _ => ?_
  refine reaches_answer none trivial trivial ?_
  refine reaches_answer () trivial trivial (reaches_answer () trivial trivial ?_)
  refine reaches_answer true trivial trivial (reaches_pass (by simp) ?_)
  exact ⟨_, .here⟩

end

/-- Mail for a user whom jk_jailuser has put into a jail, with agreeing homes: in no run does
jk_procmailwrapper start anything but the procmail of the jail, with the jail as root and the
user's home as directory. There is such a run unless the user is root or jk_jailuser took a slash
off the home; jk_chrootsh forgives the slash. -/
theorem procmailMain_delivers (L : Login) (db : Databases) (file : PyFile) (jail : JailPath)
    (user : Name) (shell : Text) (pw : Account) (b : Build) (fuel : Nat) (argv : List Text)
    (s : Session) (hmade : L.Made db file jail user shell pw) (hagree : L.HomesAgree jail pw)
    (hs : s.root = none) (hargv : programName argv ∈ procmailNames.map String.toList) :
    ∃ newhome, getjaildir L.real.pw_dir = some (L.jaildir, newhome) ∧
      (∀ c s', Reaches L.system (procmailMain b fuel argv) s c s' →
        L.Delivers b (addusertojailHome jail.text pw.pw_dir) newhome argv.tail s' c) ∧
      ((∃ path args s', Reaches L.system (procmailMain b fuel argv) s (.execv path args) s') ↔
        pw.pw_uid ≠ 0 ∧ (pw.pw_dir.getLast? = some '/' → L.real.pw_dir = pw.pw_dir)) := by
  obtain ⟨newhome, hsplits⟩ := hmade.splits hagree
  have halways := procmailMain_always hmade fuel argv hsplits hs (b := b)
  refine ⟨newhome, hsplits.found, fun c s' hreach => guard_of_reaches halways hreach, ?_⟩
  rw [← hsplits.same_iff hmade]
  constructor
  · rintro ⟨path, args, s', hreach⟩
    obtain ⟨-, -, huid, hsame, -⟩ := guard_of_reaches halways hreach
    exact ⟨hmade.uid ▸ huid, hsame⟩
  · intro ⟨huid, hsame⟩
    obtain ⟨s', hreach⟩ := procmailMain_reaches hmade fuel argv hargv hsplits.found
      (hmade.uid ▸ huid) hsame (b := b) (s := s)
    exact ⟨_, _, s', hreach⟩

theorem procmailMain_delivers_bob :
    ∃ path args s', Reaches bobLogin.system
        (procmailMain sampleBuild 9 ["jk_procmailwrapper".toList]) ⟨none, none, none, none⟩
        (.execv path args) s' ∧ path = sampleBuild.procmailpath ∧
      s' = ⟨some "/srv/jail".toList, some "/home/bob".toList, some "/home/bob".toList,
        some "bob".toList⟩ := by
  obtain ⟨newhome, hsplit, hright, hiff⟩ := procmailMain_delivers bobLogin bobDatabases rootOnly
    ⟨"/srv/jail/".toList, rfl, rfl⟩ bob "/usr/sbin/jk_lsh".toList bobAccount sampleBuild 9
    ["jk_procmailwrapper".toList] ⟨none, none, none, none⟩ bobLogin_made bobLogin_agree rfl
    (by decide +kernel)
  have hnew : getjaildir bobLogin.real.pw_dir = some ("/srv/jail".toList, "/home/bob".toList) := by
    decide +kernel
  cases hsplit.symm.trans hnew
  obtain ⟨path, args, s', hreach⟩ := hiff.mpr (by decide +kernel)
  have hdelivers := hright _ _ hreach
  exact ⟨path, args, s', hreach, hdelivers.1, hdelivers.2.2.2.2⟩

end Jailkit.Wrapper
