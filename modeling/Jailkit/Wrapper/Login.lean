import Jailkit.PasswdParser.RoundTrip
import Jailkit.Wrapper.Privileges

/-!
The login of a user that jk_jailuser has put into a jail: jk_jailuser writes the user into the
jail's passwd file and the home with the separator into the system's, and jk_chrootsh has to
find its way back from these.
-/
namespace Jailkit.Wrapper

open Prog JkLib Tools PasswdParser

/-- What the C library makes of a line of a passwd file. -/
def libcEntry (line : Text) : Option Passwd :=
  match line.splitOn ':' with
  | [name, _, uid, gid, _, dir, shell] =>
      some ⟨name, Nat.ofDigitChars 10 uid 0, Nat.ofDigitChars 10 gid 0, dir, shell⟩
  | _ => none

/-- The system when the user logs in. -/
structure Login where
  real : Passwd
  jaildir : Text
  passwd : PyFile
  conf : Option Text

/-- The state of the process, as far as it matters here: the root and the directory it is in,
where it has changed them, and what it has put into the environment as home and user. -/
structure Session where
  root : Option Text
  cwd : Option Text
  home : Option Text
  user : Option Text
  deriving DecidableEq

/-- An entry is what the system has for the user or, inside the jail, what stands in the jail's
file. Name services may answer either there. -/
def Login.Known (L : Login) (s : Session) (pw : Passwd) : Prop :=
  pw.pw_name = L.real.pw_name ∨ pw.pw_uid = L.real.pw_uid →
    pw = L.real ∨
      s.root = some L.jaildir ∧ ∃ line ∈ L.passwd.lines, libcEntry line = some pw

def Login.answers (L : Login) (s : Session) : (c : Call) → Res c → Prop
  | .getuid, r => r = L.real.pw_uid
  | .getpwnam _, r => ∀ pw, r = some pw → L.Known s pw
  | .getpwuid _, r => ∀ pw, r = some pw → L.Known s pw
  | .internalGetpwuid filename uid, r =>
      filename = "/etc/passwd".toList → s.root = some L.jaildir →
        ∃ n, ∀ fuel, n ≤ fuel → internalGetpwuid (some (L.passwd.content.getD [])) uid fuel = some r
  | .newIniparser _, r => s.root = none → r = L.conf
  | _, _ => True

def Session.after (s : Session) : (c : Call) → Res c → Session
  | .chroot path, done => if done = true then { s with root := some path } else s
  | .chdir path, done => if done = true then { s with cwd := some path } else s
  | .setenv name value, _ =>
      if name = "HOME".toList then { s with home := some value }
      else if name = "USER".toList then { s with user := some value } else s
  | .unsetenv name, _ =>
      if name = "HOME".toList then { s with home := none }
      else if name = "USER".toList then { s with user := none } else s
  | .clearenv, _ => { s with home := none, user := none }
  | _, _ => s

/-- Every other call may answer anything. -/
def Login.machine (L : Login) : Machine Call Res Session := fun s c r s' =>
  L.answers s c r ∧ s' = s.after c r

def Login.options (L : Login) (memory : Memory) (gr_name : Text) : ChrootshOptions :=
  (L.conf.map fun file => chrootshOptions memory file L.real.pw_name gr_name).getD {}

/-- Inside the jail the home is found to be the right one, and it is the shell of jk_jailuser
that starts there with the arguments of the login, or the one that the configuration puts in
its place. -/
def Login.Right (L : Login) (memory : Memory) (newhome shell : Text) (args : List Text)
    (s : Session) (c : Call) : Prop :=
  (s.root.isSome → c ≠ .exit 39) ∧
    ∀ path argv, c = .execv path argv → argv = path :: args ∧
      s = ⟨some L.jaildir, some newhome, some newhome, some L.real.pw_name⟩ ∧
        ∃ gr_name, path = (L.options memory gr_name).injail_shell.getD shell

/-- The files are as jk_jailuser and `usermod` have left them. A home that is, but for a slash at
its end, the one to be written may have been left alone. -/
structure Login.Made (L : Login) (db : Databases) (file : PyFile) (jail : JailPath) (user : Name)
    (shell : Text) (pw : Account) : Prop where
  registered : Registered db file L.passwd jail.text user shell pw
  readable : Readable file jail.text user shell pw
  name : L.real.pw_name = user.text
  uid : L.real.pw_uid = pw.pw_uid
  home : L.real.pw_dir = jailuserHome jail.text pw.pw_dir ∨
    striptrailingslash pw.pw_dir = jailuserHome jail.text pw.pw_dir ∧ L.real.pw_dir = pw.pw_dir
  jaildir : L.jaildir = jail.dir

/-- jk_chrootsh finds the jail in the user's home, and the home that the user has in it. -/
def Login.HomesAgree (L : Login) (jail : JailPath) (pw : Account) : Prop :=
  ∃ jaildir newhome, getjaildir L.real.pw_dir = some (jaildir, newhome) ∧
    dirsEqual jaildir jail.text = true ∧
      dirsEqual (addusertojailHome jail.text pw.pw_dir) newhome = true

/-- How it finds them. -/
structure Login.Splits (L : Login) (jail : JailPath) (pw : Account) (newhome : Text) : Prop where
  found : getjaildir L.real.pw_dir = some (L.jaildir, newhome)
  home : L.real.pw_dir = jail.dir ++ '/' :: '.' :: newhome
  absolute : newhome.head? = some '/'
  length : 3 ≤ jail.dir.length
  last : jail.dir.getLast? ≠ some '/'
  equal : dirsEqual (addusertojailHome jail.text pw.pw_dir) newhome = true

section

variable {α β : Type} {L : Login} {s : Session} {memory : Memory} {newhome shell : Text}
  {args : List Text}

def Rootless : Call → Prop
  | .chroot _ | .execv _ _ => False
  | .exit status => status ≠ 39
  | _ => True

theorem after_root {c : Call} {r : Res c} (h : ∀ path, c = .chroot path → False) :
    (s.after c r).root = s.root := by
  cases c with
  | chroot path => exact (h path rfl).elim
  | chdir path => simp only [Session.after]; split <;> rfl
  | setenv name value => simp only [Session.after]; split <;> [rfl; split <;> rfl]
  | unsetenv name => simp only [Session.after]; split <;> [rfl; split <;> rfl]
  | _ => rfl

theorem right_rootless {c : Call} (h : Rootless c) : L.Right memory newhome shell args s c := by
  constructor
  · rintro - rfl
    exact h rfl
  · rintro path argv rfl
    exact h.elim

theorem right_chroot {path : Text} : L.Right memory newhome shell args s (.chroot path) := by
  constructor
  · intro _ heq
    cases heq
  · intro path' argv heq
    cases heq

theorem right_execv {path : Text}
    (hs : s = ⟨some L.jaildir, some newhome, some newhome, some L.real.pw_name⟩)
    (hpath : ∃ gr_name, path = (L.options memory gr_name).injail_shell.getD shell) :
    L.Right memory newhome shell args s (.execv path (path :: args)) := by
  constructor
  · intro _ heq
    cases heq
  · intro path' argv' heq
    cases heq
    exact ⟨rfl, hs, hpath⟩

theorem always_rootless {p : Cmd α} (hp : p.Only Rootless) :
    p.Always L.machine (L.Right memory newhome shell args) (fun _ s' => s'.root = s.root) s := by
  refine always_of_only hp (fun s₁ c r s' hc hs h => ?_) (fun s₁ c hc _ => right_rootless hc) rfl
  rw [h.2, after_root, hs]
  rintro path rfl
  exact hc

/-- Before the root is changed, any harmless part will do. -/
theorem always_outside {p : Cmd α} (hp : p.Only Harmless) (hs : s.root = none) :
    p.Always L.machine (L.Right memory newhome shell args) (fun _ s' => s'.root = none) s := by
  refine always_of_only hp (fun s₁ c r s' hc hs h => ?_) (fun s₁ c hc hs => ?_) hs
  · rw [h.2, after_root, hs]
    rintro path rfl
    exact hc
  · refine ⟨fun hsome => ?_, fun path argv heq => ?_⟩
    · rw [hs] at hsome
      cases hsome
    · rw [heq] at hc
      exact absurd hc id

theorem always_bind_outside {p : Cmd α} {f : α → Cmd β} {Q : β → Session → Prop}
    (hp : p.Only Harmless) (hs : s.root = none)
    (hf : ∀ a s', s'.root = none →
      (f a).Always L.machine (L.Right memory newhome shell args) Q s') :
    (p >>= f).Always L.machine (L.Right memory newhome shell args) Q s := by
  rw [always_bind]
  exact always_mono (always_outside hp hs) hf

/-- A test is passed, or the run ends at it. -/
theorem always_pass {b : Prop} [Decidable b] {n : Nat} {f : Unit → Cmd β}
    {Q : β → Session → Prop} (hn : s.root.isSome → n ≠ 39)
    (hf : ¬ b → (f ()).Always L.machine (L.Right memory newhome shell args) Q s) :
    (exitIf b n >>= f).Always L.machine (L.Right memory newhome shell args) Q s := by
  rw [exitIf]
  split
  next =>
    refine ⟨⟨fun hsome heq => ?_, fun path argv heq => by cases heq⟩, fun r => r.elim⟩
    cases heq
    exact hn hsome rfl
  next hb => exact hf hb

theorem always_end {n : Nat} {Q : β → Session → Prop} (hn : s.root.isSome → n ≠ 39) :
    (exit n : Cmd β).Always L.machine (L.Right memory newhome shell args) Q s := by
  refine ⟨⟨fun hsome heq => ?_, fun path argv heq => by cases heq⟩, fun r => r.elim⟩
  cases heq
  exact hn hsome rfl

/-- A call that changes nothing here, with what is known of its answer. -/
theorem always_ask {c : Call} {f : Res c → Cmd β} {Q : β → Session → Prop} (hc : Rootless c)
    (hkeep : ∀ r, s.after c r = s)
    (hf : ∀ r, L.answers s c r → (f r).Always L.machine (L.Right memory newhome shell args) Q s) :
    (perform c >>= f).Always L.machine (L.Right memory newhome shell args) Q s := by
  refine ⟨right_rootless hc, fun r s' h => ?_⟩
  rw [h.2, hkeep]
  exact hf r h.1

/-- The lookup of the user, in the system or in the jail. -/
theorem getpw_known (user : Option Text) {f : Option Passwd → Cmd β} {Q : β → Session → Prop}
    (hf : ∀ r, (∀ pw, r = some pw → L.Known s pw) →
      (f r).Always L.machine (L.Right memory newhome shell args) Q s) :
    (getpw user >>= f).Always L.machine (L.Right memory newhome shell args) Q s := by
  cases user with
  | none =>
      refine always_ask trivial (fun _ => rfl) fun uid _ => ?_
      exact always_ask trivial (fun _ => rfl) fun r hr => hf r hr
  | some name => exact always_ask trivial (fun _ => rfl) fun r hr => hf r hr

theorem outside_exit (hs : s.root = none) {n : Nat} (h : s.root.isSome) : n ≠ 39 := by
  rw [hs] at h
  cases h

/-- Outside the jail it is the user's own entry that `main` goes on with. -/
theorem userInfo_real (hs : s.root = none) :
    userInfo.Always L.machine (L.Right memory newhome shell args)
      (fun info s' => info.2.1 = L.real ∧ s'.root = none) s := by
  refine always_ask trivial (fun _ => rfl) fun name _ => ?_
  refine getpw_known _ fun r hr => ?_
  cases r with
  | none => exact always_end (outside_exit hs)
  | some pw =>
      refine always_pass (outside_exit hs) fun _ => always_pass (outside_exit hs) fun _ => ?_
      refine always_ask trivial (fun _ => rfl) fun uid huid => ?_
      refine always_pass (outside_exit hs) fun hsame => ?_
      have huid : uid = L.real.pw_uid := huid
      have hreal : pw = L.real := by
        rcases hr pw rfl (Or.inr (by rw [← huid]; exact not_not.mp hsame)) with h | ⟨h, -⟩
        · exact h
        · rw [hs] at h
          cases h
      refine always_ask trivial (fun _ => rfl) fun gid _ => ?_
      refine always_ask trivial (fun _ => rfl) fun gr _ => ?_
      cases gr with
      | none => exact always_end (outside_exit hs)
      | some gr_name => exact ⟨hreal, hs⟩

theorem readChrootshOptions_read (b : Build) (gr_name : Text) (hs : s.root = none) :
    (readChrootshOptions b memory L.real gr_name).Always L.machine (L.Right memory newhome shell args)
      (fun o s' => o = L.options memory gr_name ∧ s'.root = none) s := by
  refine always_ask trivial (fun _ => rfl) fun sbuf _ => ?_
  refine always_pass (outside_exit hs) fun _ => ?_
  refine always_ask trivial (fun _ => rfl) fun file hfile => ?_
  have hfile : file = L.conf := hfile hs
  rw [hfile, Login.options]
  cases L.conf with
  | none => exact ⟨rfl, hs⟩
  | some file => exact ⟨rfl, hs⟩

theorem findJail_found {jaildir : Text}
    (hfound : getjaildir L.real.pw_dir = some (jaildir, newhome)) (hs : s.root = none) :
    (findJail L.real).Always L.machine (L.Right memory newhome shell args)
      (fun found s' => found = (jaildir, newhome) ∧ s'.root = none) s := by
  refine always_ask trivial (fun _ => rfl) fun gid _ => ?_
  refine always_pass (outside_exit hs) fun _ => always_pass (outside_exit hs) fun _ => ?_
  refine always_pass (outside_exit hs) fun _ => ?_
  rw [hfound]
  refine ⟨right_rootless trivial, fun done s₁ h => ?_⟩
  have hroot : (s.after (.chdir jaildir) done).root = s.root := after_root fun _ heq => by cases heq
  have hs₁ : s₁.root = none := by rw [h.2, hroot, hs]
  refine always_pass (outside_exit hs₁) fun _ => ?_
  refine always_ask trivial (fun _ => rfl) fun test _ => ?_
  cases test with
  | none => exact always_end (outside_exit hs₁)
  | some test => exact always_pass (outside_exit hs₁) fun _ => ⟨rfl, hs₁⟩

theorem clearCaps_rootless (caps : Caps) {n : Nat} (set : CapSet) (hn : n ≠ 39) :
    (clearCaps caps n set).Only Rootless := by
  refine only_bind (only_call trivial) fun r => ?_
  cases r with
  | none => exact only_exit hn
  | some caps => trivial

theorem dropPrivileges_rootless (b : Build) (useCapabilities : Bool) (gids : List Nat) :
    (dropPrivileges b useCapabilities (some gids)).Only Rootless := by
  rw [dropPrivileges]
  split
  · rw [dropCapability]
    split
    · refine only_bind (only_call trivial) fun r => ?_
      cases r with
      | none => exact only_exit (show 101 ≠ 39 by decide)
      | some caps =>
          refine only_bind (clearCaps_rootless caps .permitted (by decide)) fun caps => ?_
          refine only_bind (clearCaps_rootless caps .effective (by decide)) fun caps => ?_
          refine only_bind (clearCaps_rootless caps .inheritable (by decide)) fun caps => ?_
          exact only_bind (only_call trivial) fun _ => only_exitIf (show 105 ≠ 39 by decide)
    · exact only_exit (show 333 ≠ 39 by decide)
  · refine only_bind ?_ fun _ => only_bind ?_ fun _ => ?_
    · exact only_bind (only_call trivial) fun _ =>
        only_bind (only_call trivial) fun _ => only_exitIf (show 34 ≠ 39 by decide)
    · exact only_bind (only_call trivial) fun _ => only_exitIf (show 35 ≠ 39 by decide)
    · exact only_bind (only_call trivial) fun _ =>
        only_bind (only_call trivial) fun _ => only_exitIf (show 36 ≠ 39 by decide)

end

section

variable {L : Login} {s : Session} {memory : Memory} {newhome shell : Text} {args : List Text}
  {db : Databases} {file : PyFile} {jail : JailPath} {user : Name} {pw : Account}

def jailEntry (jail user shell : Text) (pw : Account) : Passwd :=
  ⟨user, pw.pw_uid, pw.pw_gid, addusertojailHome jail pw.pw_dir, shell⟩

theorem libcEntry_entry (h : Readable file jail.text user shell pw) :
    libcEntry (passwdEntry jail.text user.text shell pw) =
      some (jailEntry jail.text user.text shell pw) := by
  rw [libcEntry, passwdEntry_splitOn h, entryFields]
  simp only [pyStr, Nat.ofDigitChars_ten_toDigits, jailEntry]

theorem libcEntry_fields {line : Text} {e : Passwd} (h : libcEntry line = some e) :
    ∃ passwd uid gid gecos,
      line.splitOn ':' = [e.pw_name, passwd, uid, gid, gecos, e.pw_dir, e.pw_shell] := by
  rw [libcEntry] at h
  split at h
  next name passwd uid gid gecos dir shell hsplit =>
    cases h
    exact ⟨passwd, uid, gid, gecos, hsplit⟩
  next => cases h

/-- A line of seven fields is seen by the tools. -/
theorem testUserExist_of_line {file : PyFile} {line : Text} {fields : List Text}
    (hline : line ∈ file.lines) (hsplit : line.splitOn ':' = user.text :: fields)
    (hfields : fields ≠ []) : testUserExist user.text file.content = true := by
  have hnames : Names user.text line := by rw [Names, hsplit, List.head?_cons]
  have halone : line ≠ user.text := by
    intro heq
    rw [heq, user.splitOn] at hsplit
    exact hfields (List.cons.inj hsplit).2.symm
  rw [testUserExist, testNumitemExist_getD, testNumitemExist_iff]
  obtain ⟨ls, rest, ht, hls, hrest⟩ := exists_unlines (file.content.getD [])
  rw [PyFile.lines, ht, linesOf_unlines hls hrest] at hline
  rw [ht, readlines_unlines hls hrest]
  cases List.mem_append.mp hline with
  | inl hline =>
      have hraw := ((names_newline user line).mp hnames).resolve_right halone
      exact ⟨_, List.mem_append_left _ (List.mem_map.mpr ⟨line, hline, rfl⟩), hraw⟩
  | inr hlast => exact ⟨line, List.mem_append_right _ hlast, hnames⟩

theorem Login.Made.entry (h : L.Made db file jail user shell pw) {line : Text} {e : Passwd}
    (hline : line ∈ L.passwd.lines) (he : libcEntry line = some e)
    (hname : e.pw_name = L.real.pw_name) : e = jailEntry jail.text user.text shell pw := by
  rw [lines_registered h.registered h.readable, List.mem_append, List.mem_singleton] at hline
  cases hline with
  | inl hold =>
      obtain ⟨passwd, uid, gid, gecos, hsplit⟩ := libcEntry_fields he
      rw [hname, h.name] at hsplit
      have hseen := testUserExist_of_line hold hsplit (List.cons_ne_nil _ _)
      rw [h.registered.absent] at hseen
      cases hseen
  | inr hnew =>
      rw [hnew, libcEntry_entry h.readable] at he
      exact (Option.some.inj he).symm

/-- Inside the jail an entry under the user's name is the system's or the jail's. -/
theorem Login.Made.known (h : L.Made db file jail user shell pw) {e : Passwd}
    (hknown : L.Known s e) (hname : e.pw_name = L.real.pw_name) :
    e = L.real ∨ e = jailEntry jail.text user.text shell pw := by
  rcases hknown (Or.inl hname) with hreal | ⟨-, line, hline, he⟩
  · exact Or.inl hreal
  · exact Or.inr (h.entry hline he hname)

theorem Login.Made.found (h : L.Made db file jail user shell pw) {r : Option Passwd}
    (hr : ∃ n, ∀ fuel, n ≤ fuel →
      internalGetpwuid (some (L.passwd.content.getD [])) L.real.pw_uid fuel = some r) :
    r = some (jailEntry jail.text user.text shell pw) := by
  obtain ⟨n, hr⟩ := hr
  have hfuel := Nat.le_max_right n (2 * (L.passwd.content.getD []).length + 3)
  have hread := hr _ (Nat.le_max_left n (2 * (L.passwd.content.getD []).length + 3))
  rw [h.uid, internalGetpwuid_registered h.registered h.readable hfuel] at hread
  exact (Option.some.inj hread).symm

theorem injailNames_known (h : L.Made db file jail user shell pw) (env : Option Text)
    (gr_name : Text) :
    (injailNames env L.real gr_name).Always L.machine (L.Right memory newhome shell args)
      (fun inpw s' => inpw.pw_name = L.real.pw_name ∧
        (inpw = L.real ∨ inpw = jailEntry jail.text user.text shell pw) ∧ s'.root = s.root) s := by
  have hcode : ∀ {n : Nat}, n ≠ 39 → s.root.isSome → n ≠ 39 := fun hn _ => hn
  refine getpw_known _ fun r hr => ?_
  cases r with
  | none => exact always_end (hcode (by decide))
  | some inpw =>
      refine always_ask trivial (fun _ => rfl) fun uid _ => ?_
      refine always_pass (hcode (by decide)) fun _ => ?_
      refine always_ask trivial (fun _ => rfl) fun gid _ => ?_
      refine always_ask trivial (fun _ => rfl) fun gr _ => ?_
      cases gr with
      | none => exact always_end (hcode (by decide))
      | some ingr_name =>
          refine always_pass (hcode (by decide)) fun hname => ?_
          refine always_pass (hcode (by decide)) fun _ => ?_
          exact ⟨not_not.mp hname, h.known (hr inpw rfl) (not_not.mp hname), rfl⟩

/-- Whichever entry the C library gives, the shell is the one that jk_jailuser wrote. -/
theorem injailUser_shell (h : L.Made db file jail user shell pw) (env : Option Text)
    (gr_name : Text) (hroot : s.root = some L.jaildir) (hreal : L.real.pw_dir ≠ newhome)
    (hhome : dirsEqual (addusertojailHome jail.text pw.pw_dir) newhome = true) :
    (injailUser env L.real gr_name newhome).Always L.machine (L.Right memory newhome shell args)
      (fun r s' => r.1.pw_name = L.real.pw_name ∧ (r.2.getD r.1).pw_shell = shell ∧
        s'.root = some L.jaildir) s := by
  rw [injailUser, always_bind]
  refine always_mono (injailNames_known h env gr_name) fun inpw s' hin => ?_
  obtain ⟨hname, hin, hroot'⟩ := hin
  rw [hroot] at hroot'
  split
  next hsame =>
    rcases hin with rfl | rfl
    · exact absurd hsame hreal
    · exact ⟨hname, rfl, hroot'⟩
  next =>
    refine always_ask trivial (fun _ => rfl) fun uid huid => ?_
    refine always_ask trivial (fun _ => rfl) fun r hr => ?_
    have huid : uid = L.real.pw_uid := huid
    rw [huid] at hr
    rw [h.found (hr rfl hroot')]
    refine (always_bind _ _ _ _).mpr ?_
    rw [exitIf, if_neg (by simpa [jailEntry] using hhome)]
    exact ⟨hname, rfl, hroot'⟩

theorem startShell_right (env : Passwd) (path : Text) (argv : List Text) (gr_name : Text)
    (hroot : s.root = some L.jaildir) (hname : env.pw_name = L.real.pw_name)
    (hpath : path = (L.options memory gr_name).injail_shell.getD shell) :
    (startShell env path newhome argv).Always L.machine (L.Right memory newhome shell argv.tail)
      (fun _ _ => True) s := by
  have hcode : ∀ {s' : Session} {n : Nat}, n ≠ 39 → s'.root.isSome → n ≠ 39 := fun hn _ => hn
  refine always_ask trivial (fun _ => rfl) fun _ _ => ?_
  refine ⟨right_rootless trivial, fun _ s₁ h₁ => ?_⟩
  refine ⟨right_rootless trivial, fun _ s₂ h₂ => ?_⟩
  refine ⟨right_rootless trivial, fun _ s₃ h₃ => ?_⟩
  refine ⟨right_rootless trivial, fun _ s₄ h₄ => ?_⟩
  refine ⟨right_rootless trivial, fun done s₅ h₅ => ?_⟩
  refine always_pass (hcode (by decide)) fun hdone => ?_
  have hdone : done = true := by simpa using hdone
  have hs : s₅ = ⟨some L.jaildir, some newhome, some newhome, some L.real.pw_name⟩ := by
    rw [h₅.2, h₄.2, h₃.2, h₂.2, h₁.2, hdone, ← hroot, ← hname]
    rfl
  refine ⟨right_execv hs ⟨gr_name, hpath⟩, fun _ s₆ h₆ => ?_⟩
  exact always_end (hcode (by decide))

/-- The check of the user is left out only where the configuration names the shell. -/
theorem chrootshOptions_skip (file user group : Text)
    (h : (chrootshOptions memory file user group).skip_injail_passwd_check ≠ 0) :
    (chrootshOptions memory file user group).injail_shell.isSome := by
  rw [chrootshOptions] at h ⊢
  cases hselect : Ini.selectSection memory file user group with
  | none =>
      rw [hselect] at h
      exact absurd rfl h
  | some found =>
      rw [hselect] at h
      by_contra hnone
      exact h (if_neg hnone)

theorem options_skip (gr_name : Text)
    (h : (L.options memory gr_name).skip_injail_passwd_check ≠ 0) :
    (L.options memory gr_name).injail_shell.isSome := by
  rw [Login.options] at h ⊢
  cases hconf : L.conf with
  | none =>
      rw [hconf] at h
      exact absurd rfl h
  | some file =>
      rw [hconf] at h
      exact chrootshOptions_skip file _ gr_name h

theorem jailUser_shell (h : L.Made db file jail user shell pw) (env : Option Text)
    (gr_name : Text) (hroot : s.root = some L.jaildir) (hreal : L.real.pw_dir ≠ newhome)
    (hhome : dirsEqual (addusertojailHome jail.text pw.pw_dir) newhome = true) :
    (jailUser (L.options memory gr_name) env L.real gr_name newhome).Always L.machine
      (L.Right memory newhome shell args)
      (fun r s' => r.1.pw_name = L.real.pw_name ∧
        (L.options memory gr_name).injail_shell.getD (r.2.getD r.1).pw_shell =
          (L.options memory gr_name).injail_shell.getD shell ∧ s'.root = some L.jaildir) s := by
  rw [jailUser]
  split
  next =>
    refine always_mono (injailUser_shell h env gr_name hroot hreal hhome) fun r s' hr => ?_
    rw [hr.2.1]
    exact ⟨hr.1, rfl, hr.2.2⟩
  next hskip =>
    obtain ⟨path, hpath⟩ := Option.isSome_iff_exists.mp (options_skip gr_name hskip)
    rw [hpath]
    exact ⟨rfl, rfl, hroot⟩

theorem insideJail_right (h : L.Made db file jail user shell pw) (env : Option Text)
    (gr_name : Text) (argv : List Text) (hroot : s.root = some L.jaildir)
    (hreal : L.real.pw_dir ≠ newhome)
    (hhome : dirsEqual (addusertojailHome jail.text pw.pw_dir) newhome = true) :
    (insideJail (L.options memory gr_name) env L.real gr_name newhome argv).Always L.machine
      (L.Right memory newhome shell argv.tail) (fun _ _ => True) s := by
  rw [insideJail, always_bind]
  refine always_mono (jailUser_shell h env gr_name hroot hreal hhome) fun r s' hr => ?_
  exact startShell_right r.1 _ argv gr_name hr.2.2 hr.1 hr.2.1

/-- Changed or left, the home has the jail's separator. -/
theorem Login.Made.marked (h : L.Made db file jail user shell pw) :
    ∃ r, L.real.pw_dir = jail.dir ++ '/' :: '.' :: r := by
  rcases h.home with hhome | ⟨hstrip, hhome⟩
  · exact ⟨_, hhome.trans (jailuserHome_eq jail pw.pw_dir)⟩
  · rw [jailuserHome_eq] at hstrip
    rcases striptrailingslash_cases pw.pw_dir with ⟨hsame, -⟩ | hslash
    · exact ⟨_, hhome.trans (hsame.symm.trans hstrip)⟩
    · refine ⟨striptrailingslash (restOf jail pw.pw_dir) ++ ['/'], ?_⟩
      have hsnoc : striptrailingslash pw.pw_dir ++ ['/'] =
          jail.dir ++ '/' :: '.' :: (striptrailingslash (restOf jail pw.pw_dir) ++ ['/']) := by
        rw [hstrip, List.append_assoc]
        rfl
      exact (hhome.trans hslash).trans hsnoc

theorem Login.Made.splits (h : L.Made db file jail user shell pw) (hagree : L.HomesAgree jail pw) :
    ∃ newhome, L.Splits jail pw newhome := by
  obtain ⟨jaildir, newhome, hsplit, hequal, hhome⟩ := hagree
  obtain ⟨r, hr⟩ := h.marked
  obtain ⟨hdir, hnew, habs, h3, hlast, -⟩ :=
    (finds_jail_iff jail r jaildir newhome).mp ⟨hr ▸ hsplit, hequal⟩
  subst hdir hnew
  exact ⟨newhome, by rw [hsplit, h.jaildir], hr, habs, h3, hlast, hhome⟩

theorem Login.Splits.ne (h : L.Splits jail pw newhome) : L.real.pw_dir ≠ newhome := by
  intro heq
  have hlen := congrArg List.length (h.home.symm.trans heq)
  simp only [List.length_append, List.length_cons] at hlen
  omega

/-- Where the home has been changed, this is the agreement of the two records. -/
theorem homesAgree_iff (absolute : pw.pw_dir.head? = some '/')
    (hhome : L.real.pw_dir = jailuserHome jail.text pw.pw_dir) :
    L.HomesAgree jail pw ↔ Agrees jail ⟨pw.pw_dir, absolute⟩ := by
  rw [Login.HomesAgree, Agrees, hhome]

/-- The whole run, for a user whose home is split as the jail and `newhome`. -/
theorem chrootshMain_right (b : Build) (fuel : Nat) (argv : List Text)
    (h : L.Made db file jail user shell pw) (hsplits : L.Splits jail pw newhome)
    (hs : s.root = none) :
    (chrootshMain b memory fuel argv).Always L.machine (L.Right memory newhome shell argv.tail)
      (fun _ _ => True) s := by
  refine always_bind_outside (only_exitIf trivial) hs fun _ s₁ hs₁ => ?_
  refine always_bind_outside (setuidCheck_harmless b) hs₁ fun useCapabilities s₂ hs₂ => ?_
  rw [always_bind]
  refine always_mono (userInfo_real hs₂) fun info s₃ hinfo => ?_
  obtain ⟨env, real, gr_name⟩ := info
  obtain ⟨hinfo, hs₃⟩ := hinfo
  have hinfo : real = L.real := hinfo
  rw [hinfo]
  refine always_bind_outside (only_call trivial) hs₃ fun gids s₄ hs₄ => ?_
  cases gids with
  | none => exact always_end (outside_exit hs₄)
  | some gids =>
      dsimp only
      rw [always_bind]
      refine always_mono (readChrootshOptions_read b gr_name hs₄) fun o s₅ ho => ?_
      obtain ⟨ho, hs₅⟩ := ho
      rw [ho]
      refine always_bind_outside (closeDescriptors_harmless fuel) hs₅ fun _ s₆ hs₆ => ?_
      refine always_bind_outside (unsetEnvironExcept_harmless _ fuel) hs₆ fun _ s₇ hs₇ => ?_
      rw [always_bind]
      refine always_mono (findJail_found hsplits.found hs₇) fun found s₈ hfound => ?_
      obtain ⟨hfound, hs₈⟩ := hfound
      rw [hfound]
      refine always_bind_outside (checkHome_harmless _ _ _) hs₈ fun _ s₉ hs₉ => ?_
      refine ⟨right_chroot, fun done s' h' => ?_⟩
      -- from here on the jail is the root
      refine always_pass (fun _ => by decide) fun hdone => ?_
      have hdone : done = true := by simpa using hdone
      have hroot : s'.root = some L.jaildir := by
        rw [h'.2, hdone]
        rfl
      rw [always_bind]
      refine always_mono (always_rootless (dropPrivileges_rootless b _ _)) fun _ s'' hs'' => ?_
      exact insideJail_right h env gr_name argv (hs''.trans hroot) hsplits.ne hsplits.equal

end

/-- A user whom jk_jailuser has put into the jail, and whose records agree, comes to the right
place: whatever the calls answer and whichever way they fail, if anything is started it is the
shell of the user or the one of the configuration, in the jail and in the home, and jk_chrootsh
never gives up over a home that differs. -/
theorem chrootshMain_login (L : Login) (db : Databases) (file : PyFile) (jail : JailPath)
    (user : Name) (shell : Text) (pw : Account) (b : Build) (memory : Memory) (fuel : Nat)
    (argv : List Text) (hmade : L.Made db file jail user shell pw)
    (hagree : L.HomesAgree jail pw) :
    ∃ newhome, getjaildir L.real.pw_dir = some (L.jaildir, newhome) ∧
      dirsEqual (addusertojailHome jail.text pw.pw_dir) newhome = true ∧
      ∀ s s' c, s.root = none → Reaches L.machine (chrootshMain b memory fuel argv) s c s' →
        L.Right memory newhome shell argv.tail s' c := by
  obtain ⟨newhome, hsplits⟩ := hmade.splits hagree
  refine ⟨newhome, hsplits.found, hsplits.equal, fun s s' c hs hreach => ?_⟩
  exact guard_of_reaches (chrootshMain_right b fuel argv hmade hsplits hs) hreach

/-- A name service that knows bob outside of the jail only, and there in the jail as well. -/
def bobLogin : Login where
  real := ⟨"bob".toList, 1001, 100, "/srv/jail/./home/bob".toList, "/usr/sbin/jk_chrootsh".toList⟩
  jaildir := "/srv/jail".toList
  passwd := rootAndBob
  conf := none

def bobResult : (c : Call) → Option (Res c)
  | .getuid => some 1001
  | .getgid => some 100
  | .getpwuid _ => some (some bobLogin.real)
  | .internalGetpwuid _ uid =>
      if uid = 1001 then
        some (some ⟨"bob".toList, 1001, 100, "/home/bob".toList, "/usr/sbin/jk_lsh".toList⟩)
      else none
  | .getcwd => some (some "/srv/jail".toList)
  | .lstat path =>
      if path = "/srv/jail/./home/bob".toList then some (some ⟨0o40755, 1001, 100⟩)
      else some (some ⟨0o40755, 0, 0⟩)
  | c => (sampleAnswer sampleStart c).map Prod.fst

def bobAnswer (s : Session) (c : Call) : Option (Res c × Session) :=
  (bobResult c).map fun r => (r, s.after c r)

theorem bobLogin_made : bobLogin.Made bobDatabases rootOnly ⟨"/srv/jail/".toList, rfl, rfl⟩ bob
    "/usr/sbin/jk_lsh".toList bobAccount :=
  ⟨bob_registered, bob_readable, rfl, rfl, Or.inl (by decide +kernel), by decide +kernel⟩

theorem bobLogin_agree : bobLogin.HomesAgree ⟨"/srv/jail/".toList, rfl, rfl⟩ bobAccount :=
  (homesAgree_iff rfl (by decide +kernel)).mpr
    ⟨"/srv/jail".toList, "/home/bob".toList, by decide +kernel, by decide, by decide +kernel⟩

theorem bobResult_answers (s : Session) (c : Call) (r : Res c) (h : bobResult c = some r) :
    bobLogin.answers s c r := by
  cases c with
  | getuid => exact (Option.some.inj h).symm
  | getpwnam name =>
      intro pw hpw
      cases (Option.some.inj h).trans hpw
  | getpwuid uid =>
      exact fun pw hpw _ => Or.inl (Option.some.inj ((Option.some.inj h).trans hpw)).symm
  | internalGetpwuid filename uid =>
      simp only [bobResult] at h
      split at h
      next huid =>
        subst huid
        refine fun _ _ => ⟨2 * (rootAndBob.content.getD []).length + 3, fun fuel hfuel => ?_⟩
        rw [← Option.some.inj h]
        have hhome : addusertojailHome "/srv/jail/".toList bobAccount.pw_dir = "/home/bob".toList := by
          decide +kernel
        have hread := internalGetpwuid_registered bob_registered bob_readable hfuel
        rwa [hhome] at hread
      next => cases h
  | newIniparser filename => exact fun _ => (Option.some.inj h).symm
  | _ => trivial

theorem bobAnswer_machine (s : Session) (c : Call) (r : Res c) (s' : Session)
    (h : bobAnswer s c = some (r, s')) : bobLogin.machine s c r s' := by
  obtain ⟨a, ha, heq⟩ := Option.map_eq_some_iff.mp h
  cases heq
  exact ⟨bobResult_answers s c _ ha, rfl⟩

theorem chrootshMain_login_bob :
    ∃ s', Reaches bobLogin.machine
        (chrootshMain sampleBuild (fun _ _ => nul) 9 ["jk_chrootsh".toList])
        ⟨none, none, none, none⟩ (.execv "/usr/sbin/jk_lsh".toList ["/usr/sbin/jk_lsh".toList]) s' ∧
      s' = ⟨some "/srv/jail".toList, some "/home/bob".toList, some "/home/bob".toList,
        some "bob".toList⟩ := by
  obtain ⟨newhome, hsplit, -, hright⟩ := chrootshMain_login bobLogin bobDatabases rootOnly
    ⟨"/srv/jail/".toList, rfl, rfl⟩ bob "/usr/sbin/jk_lsh".toList bobAccount sampleBuild
    (fun _ _ => nul) 9 ["jk_chrootsh".toList] bobLogin_made bobLogin_agree
  have hnew : getjaildir bobLogin.real.pw_dir = some ("/srv/jail".toList, "/home/bob".toList) := by
    decide +kernel
  cases hsplit.symm.trans hnew
  have hrun : ((chrootshMain sampleBuild (fun _ _ => nul) 9 ["jk_chrootsh".toList]).drive
      bobAnswer isExecv ⟨none, none, none, none⟩).any
        (fun d => d.1 == .execv "/usr/sbin/jk_lsh".toList ["/usr/sbin/jk_lsh".toList]) = true := by
    decide +kernel
  obtain ⟨d, s', hreach, hd⟩ := reaches_of_any bobAnswer_machine hrun
  have hd : d = .execv "/usr/sbin/jk_lsh".toList ["/usr/sbin/jk_lsh".toList] := by simpa using hd
  rw [hd] at hreach
  exact ⟨s', hreach, ((hright _ _ _ rfl hreach).2 _ _ rfl).2.1⟩

end Jailkit.Wrapper
