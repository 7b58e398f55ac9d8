import Jailkit.Check.JailUsers
import Jailkit.Tools.Moduser

/-!
What jk_check says about the users that jk_jailuser has put into a jail.
-/
namespace Jailkit.Check

open JkLib (readlines testUserExist pyStr join Names)
open Tools

/-- What can be read on the host, with the jail's file at the path that jk_check writes. -/
def hostContents (jail : JailPath) (host : Host) : Contents := fun path =>
  if path = jail.text ++ etcPasswd then host.files.passwd.content
  else if path = etcPasswd then some host.table.text
  else none

/-- `testjailusers` on the host. -/
def audit (verbose : Bool) (jail : JailPath) (host : Host) : Tested :=
  testjailusers verbose (fun path => (hostContents jail host path).isSome)
    (hostContents jail host) jail.text

/-- Seen from the jail, the home does not end in a slash, or it is the one that jk_chrootsh
already takes the user to. -/
def Fits (jail : JailPath) (r : UserRecord) : Prop :=
  ∃ h, HomeInJail jail.dir r.dir.text h ∧
    (h.getLast? = some '/' →
      r.shell.text = chrootsh ∧ r.dir.text = jail.dir ++ '/' :: '.' :: h)

/-- The line in the jail goes with the record of the system. -/
def GoesWith (chroothome : Text) (r : UserRecord) (jpw : List Text) : Prop :=
  jpw[2]? = some (pyStr r.uid) ∧ jpw[3]? = some (pyStr r.gid) ∧
    ∃ home, jpw[5]? = some home ∧ r.dir.text = chroothome ++ '.' :: home

/-- What jk_check asks of a line in the jail, in terms of the system's table. -/
def AcceptedBy (chroothome : Text) (table : UserTable) (jline : Text) : Prop :=
  let jpw := jline.splitOn ':'
  jpw.headD [] = "root".toList ∨
    ∃ r, table.getpwnam (jpw.headD []) = some r ∧ GoesWith chroothome r jpw

section

variable {chroothome : Text} {table : UserTable} {r : UserRecord} {jail : JailPath}

def fieldsBefore (r : UserRecord) : List Text :=
  [r.name.text, r.passwd.text, pyStr r.uid, pyStr r.gid, r.gecos.text, r.dir.text]

theorem fields_plain (r : UserRecord) : ∀ f ∈ r.fields, ':' ∉ f ∧ '\n' ∉ f := by
  intro f hf
  simp only [UserRecord.fields, List.mem_cons, List.not_mem_nil, or_false] at hf
  rcases hf with rfl | rfl | rfl | rfl | rfl | rfl | rfl
  · exact ⟨r.name.oneField, r.name.oneLine⟩
  · exact ⟨r.passwd.oneField, r.passwd.oneLine⟩
  · exact ⟨not_mem_pyStr (by decide) _, not_mem_pyStr (by decide) _⟩
  · exact ⟨not_mem_pyStr (by decide) _, not_mem_pyStr (by decide) _⟩
  · exact ⟨r.gecos.oneField, r.gecos.oneLine⟩
  · exact ⟨r.dir.oneField, r.dir.oneLine⟩
  · exact ⟨r.shell.oneField, r.shell.oneLine⟩

theorem newline_not_mem_line (r : UserRecord) : '\n' ∉ r.line := by
  intro h
  rcases JkLib.mem_join h with h | ⟨f, hf, h⟩
  · exact absurd h (by decide)
  · exact (fields_plain r f hf).2 h

theorem line_splitOn (r : UserRecord) :
    (r.line ++ ['\n']).splitOn ':' = fieldsBefore r ++ (r.shell.text ++ ['\n']).splitOn ':' := by
  have hline : r.line ++ ['\n'] =
      ((fieldsBefore r).flatMap fun f => f ++ [':']) ++ (r.shell.text ++ ['\n']) := by
    simp [UserRecord.line, UserRecord.fields, fieldsBefore, join, List.intercalate]
  rw [hline]
  exact splitOn_fields (fun f hf => (fields_plain r f (List.mem_append_left [_] hf)).1) _

theorem entry_splitOn (jail shell : Text) (r : UserRecord) :
    (passwdEntry jail r.name.text shell r.account ++ ['\n']).splitOn ':' =
      [r.name.text, ['x'], pyStr r.uid, pyStr r.gid, r.gecos.text,
        addusertojailHome jail r.dir.text] ++ (shell ++ ['\n']).splitOn ':' := by
  have hentry : passwdEntry jail r.name.text shell r.account ++ ['\n'] =
      ([r.name.text, ['x'], pyStr r.uid, pyStr r.gid, r.gecos.text,
        addusertojailHome jail r.dir.text].flatMap fun f => f ++ [':']) ++ (shell ++ ['\n']) := by
    simp [passwdEntry, UserRecord.account]
  have hhome : ':' ∉ addusertojailHome jail r.dir.text := fun h =>
    r.dir.oneField (mem_addusertojailHome h)
  rw [hentry, splitOn_fields]
  simp only [List.forall_mem_cons, List.not_mem_nil, false_imp_iff, implies_true, and_true]
  exact ⟨r.name.oneField, by decide, not_mem_pyStr (by decide) _, not_mem_pyStr (by decide) _,
    r.gecos.oneField, hhome⟩

theorem readlines_table (table : UserTable) :
    readlines table.text = table.map fun r => r.line ++ ['\n'] := by
  have hlines : ∀ l ∈ table.map UserRecord.line, '\n' ∉ l := by
    intro l hl
    obtain ⟨r, -, rfl⟩ := List.mem_map.mp hl
    exact newline_not_mem_line r
  have hread := JkLib.readlines_unlines hlines List.not_mem_nil
  rw [JkLib.unlines, JkLib.lastLine, if_pos rfl, List.append_nil, List.append_nil,
    List.flatMap_map, List.map_map] at hread
  exact hread

theorem corresponds_iff (jpw : List Text) :
    Corresponds chroothome (fieldsBefore r ++ (r.shell.text ++ ['\n']).splitOn ':') jpw ↔
      GoesWith chroothome r jpw := by
  simp only [Corresponds, GoesWith, fieldsBefore, List.cons_append, List.getElem?_cons_succ,
    List.getElem?_cons_zero, Option.some.injEq]
  constructor
  · rintro ⟨uid, gid, home, rfl, huid, rfl, hgid, hhome, hjhome⟩
    exact ⟨huid, hgid, home, hjhome, hhome⟩
  · rintro ⟨huid, hgid, home, hjhome, hhome⟩
    exact ⟨_, _, home, rfl, huid, rfl, hgid, hhome, hjhome⟩

theorem accepted_iff (jline : Text) :
    Accepted chroothome (readlines table.text) jline ↔ AcceptedBy chroothome table jline := by
  have hfind : ∀ user : Text, ((readlines table.text).map fun rline => rline.splitOn ':').find?
        (fun rpw => rpw.head? = some user) =
      (table.getpwnam user).map fun r =>
        fieldsBefore r ++ (r.shell.text ++ ['\n']).splitOn ':' := by
    intro user
    rw [readlines_table, List.map_map, List.find?_map, UserTable.getpwnam]
    have hsplit : (fun rline : Text => rline.splitOn ':') ∘ (fun r : UserRecord => r.line ++ ['\n'])
        = fun r => fieldsBefore r ++ (r.shell.text ++ ['\n']).splitOn ':' := funext line_splitOn
    rw [hsplit]
    congr 2
    funext r
    simp [fieldsBefore]
  simp only [Accepted, AcceptedBy, hfind, Option.map_eq_some_iff]
  refine or_congr_right ⟨?_, ?_⟩
  · rintro ⟨rpw, ⟨r, hr, rfl⟩, hgoes⟩
    exact ⟨r, hr, (corresponds_iff _).mp hgoes⟩
  · rintro ⟨r, hr, hgoes⟩
    exact ⟨_, ⟨r, hr, rfl⟩, (corresponds_iff _).mpr hgoes⟩

def AllAccepted (jail : JailPath) (host : Host) : Prop :=
  ∀ jline ∈ readlines (host.files.passwd.content.getD []),
    AcceptedBy jail.text host.table jline

theorem audit_clean_iff (verbose : Bool) (jail : JailPath) (host : Host) :
    (audit verbose jail host).Clean ↔ AllAccepted jail host := by
  have hjailed : hostContents jail host (jail.text ++ etcPasswd) = host.files.passwd.content :=
    if_pos rfl
  have hne : etcPasswd ≠ jail.text ++ etcPasswd := by
    intro h
    have hlen := congrArg List.length h
    rw [jail.text_eq] at hlen
    simp at hlen
    omega
  have hreal : hostContents jail host etcPasswd = some host.table.text := by
    rw [hostContents, if_neg hne, if_pos rfl]
  rw [audit, AllAccepted]
  cases hcontent : host.files.passwd.content with
  | none =>
      rw [hcontent] at hjailed
      rw [testjailusers, if_neg (by rw [hjailed]; decide)]
      exact iff_of_true ⟨fun r hr => absurd hr List.not_mem_nil, rfl⟩ fun l hl =>
        absurd hl List.not_mem_nil
  | some content =>
      rw [hcontent] at hjailed
      rw [testjailusers_clean_iff (by rw [hjailed]; rfl) hjailed hreal]
      exact forall₂_congr fun jline _ => accepted_iff jline

/-- The record that a round leaves goes with the line that it writes exactly if the home
fits. -/
theorem changedRecord_goes_iff (hjail : ShellWord jail.text) (h3 : 3 ≤ jail.dir.length)
    (hdir : jail.dir.getLast? ≠ some '/') (shell : Text) :
    GoesWith jail.text (changedRecord jail hjail r)
        ((passwdEntry jail.text r.name.text shell r.account ++ ['\n']).splitOn ':') ↔
      Fits jail r := by
  have hnumbers : (changedRecord jail hjail r).uid = r.uid ∧
      (changedRecord jail hjail r).gid = r.gid := by
    rw [changedRecord]
    split <;> exact ⟨rfl, rfl⟩
  have hhome : GoesWith jail.text (changedRecord jail hjail r)
        ((passwdEntry jail.text r.name.text shell r.account ++ ['\n']).splitOn ':') ↔
      (changedRecord jail hjail r).dir.text =
        jail.dir ++ '/' :: '.' :: addusertojailHome jail.text r.dir.text := by
    rw [entry_splitOn, GoesWith, hnumbers.1, hnumbers.2, jail.text_eq]
    simp
  rw [hhome, changedRecord]
  split
  next hchange =>
    simp only [newHome, jailuserHome_eq, List.append_cancel_left_eq, List.cons.injEq, true_and]
    rw [eq_comm, sameHome_iff h3 hdir]
    constructor
    · rintro ⟨h, hin, hlast⟩
      exact ⟨h, hin, fun hslash => absurd hslash hlast⟩
    · rintro ⟨h, hin, hfits⟩
      refine ⟨h, hin, fun hslash => ?_⟩
      obtain ⟨hshell, hmarked⟩ := hfits hslash
      refine hchange.elim (fun hne => hne ?_) fun hne => hne hshell
      rw [jailuserHome_eq, restOf_eq jail hdir hin, hmarked,
        List.append_cons, striptrailingslash_append _ _ (by decide)]
      simp
  next hsame =>
    rw [not_or, not_not, not_not] at hsame
    obtain ⟨h, hmarked, hhead⟩ := marked_of_unchanged hsame.1
    have hin : HomeInJail jail.dir r.dir.text h := .marked hmarked hhead
    rw [addusertojailHome_eq jail _ ((inJail_eq_iff jail _ hdir).mpr ⟨h, hin⟩),
      restOf_eq jail hdir hin]
    exact iff_of_true hmarked ⟨h, hin, fun _ => ⟨hsame.2, hmarked⟩⟩

variable {system : OsSystem} {getgrgid : Nat → Option Group} {groups : List ListedGroup}
  {shell : Text} {host : Host}

theorem readlines_registered {f f' : JailFiles}
    (hready : Writable f.passwd) (hshell : '\n' ∉ shell)
    (h : Registers getgrgid jail shell r table f f') :
    readlines (f'.passwd.content.getD []) = readlines (f.passwd.content.getD []) ++
      [passwdEntry jail.text r.name.text shell r.account ++ ['\n']] := by
  have hne : passwdEntry jail.text r.name.text shell r.account ≠ [] := by
    simp [passwdEntry, r.name.nonempty]
  rw [h.line, Option.getD_some, JkLib.readlines_endsLine hready.ends]
  congr 1
  exact (JkLib.readlines_line hne (newline_not_mem_record r _ hshell) []).2

theorem entry_names (jail : JailPath) (shell a : Text) (r : UserRecord) :
    Names a (passwdEntry jail.text r.name.text shell r.account ++ ['\n']) ↔ r.name.text = a := by
  rw [Names, entry_splitOn, List.cons_append, List.head?_cons, Option.some_inj]

/-- Nobody else is registered by a round. -/
theorem testUserExist_registered {f f' : JailFiles} (hready : Writable f.passwd)
    (hshell : '\n' ∉ shell) (h : Registers getgrgid jail shell r table f f') {a : Text}
    (ha : r.name.text ≠ a) (hnew : testUserExist a f.passwd.content = false) :
    testUserExist a f'.passwd.content = false := by
  rw [Bool.eq_false_iff] at hnew ⊢
  intro hseen
  rw [testUserExist, testNumitemExist_getD, testNumitemExist_iff,
    readlines_registered hready hshell h] at hseen
  obtain ⟨line, hline, hnames⟩ := hseen
  cases List.mem_append.mp hline with
  | inl hline =>
      refine hnew ?_
      rw [testUserExist, testNumitemExist_getD, testNumitemExist_iff]
      exact ⟨line, hline, hnames⟩
  | inr hline =>
      rw [List.mem_singleton.mp hline, entry_names] at hnames
      exact ha hnames

/-- A round for a new user: the lines of the others are accepted as before, and the new one
exactly if the home of the user fits. -/
theorem allAccepted_round {host' : Host} {f : JailFiles} (hjail : ShellWord jail.text)
    (h3 : 3 ≤ jail.dir.length) (hdir : jail.dir.getLast? ≠ some '/') (hshell : '\n' ∉ shell)
    (hready : Writable host.files.passwd)
    (hnew : testUserExist r.name.text host.files.passwd.content = false)
    (hregisters : Registers getgrgid jail shell r host.table host.files f)
    (hrehomes : Rehomes jail hjail r { host with files := f } host')
    (hfailed : host'.failed = []) :
    AllAccepted jail host' ↔
      AllAccepted jail host ∧ (r.name.text ≠ "root".toList → Fits jail r) := by
  obtain ⟨-, hself⟩ := hrehomes.unfailed hfailed
  rw [AllAccepted, hrehomes.files, readlines_registered hready hshell hregisters,
    List.forall_mem_append, List.forall_mem_singleton, AllAccepted]
  refine and_congr (forall₂_congr fun jline hjline => ?_) ?_
  · have hother : (jline.splitOn ':').headD [] ≠ r.name.text := by
      intro hname
      have hnames : Names r.name.text jline := by
        rw [Names]
        cases hsplit : jline.splitOn ':' with
        | nil => exact absurd hsplit (List.splitOn_ne_nil _ _)
        | cons f fs =>
            rw [hsplit] at hname
            exact congrArg some hname
      have hseen := (testNumitemExist_iff r.name.text).mpr ⟨jline, hjline, hnames⟩
      rw [← testNumitemExist_getD] at hseen
      rw [testUserExist, hseen] at hnew
      cases hnew
    simp only [AcceptedBy, hrehomes.others _ hother]
  · have hname : ((passwdEntry jail.text r.name.text shell r.account ++ ['\n']).splitOn ':').headD
        [] = r.name.text := by
      rw [entry_splitOn]
      rfl
    simp only [AcceptedBy, hname, hself, Option.some.injEq, exists_eq_left',
      changedRecord_goes_iff hjail h3 hdir]
    exact or_iff_not_imp_left

/-- The run over the users, by induction on them: each one is new in its round, and the rounds
before have left its record as it was. -/
theorem jailusers_accepted (hsystem : Usermod system) (hjail : ShellWord jail.text)
    (h3 : 3 ≤ jail.dir.length) (hdir : jail.dir.getLast? ≠ some '/') (hshell : '\n' ∉ shell)
    (args : List Text) (hnodup : args.Nodup) (hgroups : KnownGroups getgrgid groups host.table)
    (hready : ∃ t, ReadyFiles (host.table.databases getgrgid) host.files t)
    (hnew : ∀ a ∈ args, testUserExist a host.files.passwd.content = false)
    (hplain : ∀ a ∈ args, ∀ r, host.table.getpwnam a = some r → PlainWords jail r) :
    ∃ host', jailusers system getgrgid groups jail.text shell args host = .ok (none, host') ∧
      (host'.failed = [] → host.failed = [] ∧
        (AllAccepted jail host' ↔ AllAccepted jail host ∧
          ∀ a ∈ args, a ≠ "root".toList → ∀ r, host.table.getpwnam a = some r →
            Fits jail r)) := by
  induction args generalizing host with
  | nil => exact ⟨host, rfl, fun hfailed => ⟨hfailed, by simp⟩⟩
  | cons username args ih =>
      rw [jailusers]
      have hrest := fun a (ha : a ∈ args) => hnew a (List.mem_cons_of_mem _ ha)
      have hplains := fun a (ha : a ∈ args) => hplain a (List.mem_cons_of_mem _ ha)
      cases hr : host.table.getpwnam username with
      | none =>
          obtain ⟨host', hrun, hclaim⟩ := ih hnodup.of_cons hgroups hready hrest hplains
          refine ⟨host', hrun, fun hfailed => ⟨(hclaim hfailed).1, ?_⟩⟩
          rw [(hclaim hfailed).2, List.forall_mem_cons, hr]
          simp
      | some r =>
          have hname : r.name.text = username := getpwnam_name hr
          have hsome : (some r).isSome = true := rfl
          subst hname
          have hunseen := hnew _ List.mem_cons_self
          obtain ⟨t, hfiles⟩ := hready
          obtain ⟨f, hround, hregisters⟩ := jailuser_new hgroups hshell ⟨t, hfiles⟩ hr hunseen
          have hrehomes : Rehomes jail hjail r { host with files := f }
              (changeHome system jail.text r.name.text r { host with files := f }) :=
            changeHome_rehomes hsystem hjail (hplain _ List.mem_cons_self r hr) hr
          generalize changeHome system jail.text r.name.text r { host with files := f } = host₁
            at hround hrehomes
          have hother : ∀ a ∈ args, r.name.text ≠ a := fun a ha heq =>
            (List.nodup_cons.mp hnodup).1 (heq ▸ ha)
          have hsame : ∀ a ∈ args, host₁.table.getpwnam a = host.table.getpwnam a := fun a ha =>
            hrehomes.others a (hother a ha).symm
          have hready₁ : ∃ t, ReadyFiles (host₁.table.databases getgrgid) host₁.files t := by
            obtain ⟨t', h'⟩ := hregisters.ready
            rw [hrehomes.files]
            exact ⟨t', h'.passwd, h'.opens, h'.holds, h'.kept⟩
          have hnew₁ : ∀ a ∈ args, testUserExist a host₁.files.passwd.content = false := by
            intro a ha
            rw [hrehomes.files]
            exact testUserExist_registered hfiles.passwd hshell hregisters (hother a ha)
              (hrest a ha)
          obtain ⟨host', hrun, hclaim⟩ := ih hnodup.of_cons (hrehomes.groups _ _ hgroups) hready₁
            hnew₁ fun a ha r' hr' => hplains a ha r' ((hsame a ha).symm.trans hr')
          refine ⟨host', ?_, fun hfailed => ?_⟩
          · rw [if_pos hsome, hround]
            exact hrun
          · obtain ⟨hfailed₁, hall⟩ := hclaim hfailed
            have hfirst := allAccepted_round hjail h3 hdir hshell hfiles.passwd hunseen hregisters
              hrehomes hfailed₁
            refine ⟨(hrehomes.unfailed hfailed₁).1, ?_⟩
            rw [hall, hfirst, and_assoc, List.forall_mem_cons, hr]
            simp only [Option.some.injEq, forall_eq']
            refine and_congr_right fun _ => and_congr_right fun _ => ?_
            exact forall₂_congr fun a ha => by rw [hsame a ha]

end

/-- When jk_jailuser is through with users that are new to the jail, and `usermod` has not
failed, jk_check finds fault with the jail's users exactly if it did so before, or if the home
of one of them does not fit. -/
theorem jailusers_audited (system : OsSystem) (getgrgid : Nat → Option Group)
    (groups : List ListedGroup) (jail : JailPath) (shell : Text) (args : List Text) (host : Host)
    (verbose : Bool) (hsystem : Usermod system) (hjail : ShellWord jail.text)
    (h3 : 3 ≤ jail.dir.length) (hdir : jail.dir.getLast? ≠ some '/') (hshell : '\n' ∉ shell)
    (hnodup : args.Nodup) (hgroups : KnownGroups getgrgid groups host.table)
    (hready : ∃ t, ReadyFiles (host.table.databases getgrgid) host.files t)
    (hnew : ∀ a ∈ args, testUserExist a host.files.passwd.content = false)
    (hplain : ∀ a ∈ args, ∀ r, host.table.getpwnam a = some r → PlainWords jail r) :
    ∃ host', jailusers system getgrgid groups jail.text shell args host = .ok (none, host') ∧
      (host'.failed = [] →
        ((audit verbose jail host').Clean ↔ (audit verbose jail host).Clean ∧
          ∀ a ∈ args, a ≠ "root".toList → ∀ r, host.table.getpwnam a = some r →
            Fits jail r)) := by
  obtain ⟨host', hrun, hclaim⟩ := jailusers_accepted hsystem hjail h3 hdir hshell args hnodup
    hgroups hready hnew hplain
  refine ⟨host', hrun, fun hfailed => ?_⟩
  rw [audit_clean_iff, audit_clean_iff]
  exact (hclaim hfailed).2

/-- A `usermod` that knows the command line of jk_jailuser only. -/
def plainUsermod : OsSystem := fun command table =>
  match command.splitOn ' ' with
  | [_, _, home, _, shell, user] =>
      if h : (':' ∉ home ∧ '\n' ∉ home) ∧ ':' ∉ shell ∧ '\n' ∉ shell then
        (0, table.rehome user ⟨home, h.1.1, h.1.2⟩ ⟨shell, h.2.1, h.2.2⟩)
      else (1, table)
  | _ => (1, table)

theorem joined_words {front middle u d s : Text} (hfront : front = u ++ ' ' :: d ++ [' '])
    (hmiddle : middle = ' ' :: s ++ [' ']) (home shell user : Text) :
    front ++ home ++ middle ++ shell ++ [' '] ++ user = join ' ' [u, d, home, s, shell, user] := by
  rw [hfront, hmiddle]
  simp [join, List.intercalate]

theorem plainUsermod_eq {user : Text} {home shell : Field} (table : UserTable)
    (huser : ShellWord user) (hhome : ShellWord home.text) (hshell : ShellWord shell.text) :
    plainUsermod (usermodCommand user home.text shell.text) table =
      (0, table.rehome user home shell) := by
  have hblank : ∀ {w : Text}, ShellWord w → ' ' ∉ w := fun hw hmem =>
    absurd (hw.plain _ hmem) (by decide)
  have hcommand : usermodCommand user home.text shell.text =
      join ' ' ["usermod".toList, "-d".toList, home.text, "-s".toList, shell.text, user] := by
    have hfront : "usermod -d ".toList = "usermod".toList ++ ' ' :: "-d".toList ++ [' '] := by decide
    have hmiddle : " -s ".toList = ' ' :: "-s".toList ++ [' '] := by decide
    exact joined_words hfront hmiddle home.text shell.text user
  have hsplit : (usermodCommand user home.text shell.text).splitOn ' ' =
      ["usermod".toList, "-d".toList, home.text, "-s".toList, shell.text, user] := by
    rw [hcommand]
    refine JkLib.splitOn_join (List.cons_ne_nil _ _) ?_
    simp only [List.forall_mem_cons, List.not_mem_nil, false_imp_iff, implies_true, and_true]
    exact ⟨by decide, by decide, hblank hhome, by decide, hblank hshell, hblank huser⟩
  rw [plainUsermod, hsplit]
  exact dif_pos ⟨⟨home.oneField, home.oneLine⟩, shell.oneField, shell.oneLine⟩

theorem plainUsermod_usermod : Usermod plainUsermod where
  modifies user home shell table huser _ hhome hshell _ := by
    rw [plainUsermod_eq table huser hhome hshell]
  fails user home shell table huser _ hhome hshell hstatus := by
    rw [plainUsermod_eq table huser hhome hshell] at hstatus
    exact absurd rfl hstatus

def srvJail : JailPath := ⟨"/srv/jail/".toList, by decide, by decide⟩

def anna : UserRecord where
  name := ⟨"anna".toList, by decide, by decide, by decide, by decide⟩
  passwd := ⟨['x'], by decide, by decide⟩
  uid := 1003
  gid := 100
  gecos := ⟨[], by decide, by decide⟩
  dir := ⟨"/home/anna".toList, by decide, by decide⟩
  shell := ⟨"/bin/bash".toList, by decide, by decide⟩

def smallHost : Host := ⟨[anna], smallFiles, []⟩

def smallGroup (gid : Nat) : Option Group := if gid = 100 then some usersGroup else none

theorem jailusers_audited_anna :
    ∃ host', jailusers plainUsermod smallGroup [] srvJail.text "/bin/sh".toList ["anna".toList]
        smallHost = .ok (none, host') ∧
      host'.failed = [] ∧ (audit true srvJail host').Clean := by
  have hanna : ∀ {a r}, smallHost.table.getpwnam a = some r → r = anna := by
    intro a r h
    exact List.mem_singleton.mp (List.mem_of_find?_eq_some h)
  have hgroup : ∀ {g gr}, smallGroup g = some gr → g = 100 ∧ gr = usersGroup := by
    intro g gr h
    rw [smallGroup] at h
    split at h
    next hg => exact ⟨hg, (Option.some.inj h).symm⟩
    next => cases h
  have hword : ∀ {w : Text}, w ≠ [] → (w.all fun c =>
      c.isAlphanum || decide (c ∈ "/._-".toList)) = true → ShellWord w := fun hne hall =>
    ⟨hne, by simpa using hall⟩
  have hready : ∃ t, ReadyFiles (smallHost.table.databases smallGroup) smallFiles t := by
    refine ⟨_, smallFiles_ready.passwd, rfl, smallFiles_ready.holds, fun r hr g gr h => ?_⟩
    obtain ⟨hg, hgr⟩ := hgroup h
    rw [List.mem_singleton.mp hr, hg, hgr]
    decide
  obtain ⟨host', hrun, hclaim⟩ := jailusers_audited plainUsermod smallGroup [] srvJail
    "/bin/sh".toList ["anna".toList] smallHost true plainUsermod_usermod
    (hword (by decide) (by decide +kernel)) (by decide) (by decide) (by decide) (by decide)
    ⟨⟨fun g gr h => by rw [(hgroup h).1, (hgroup h).2]; rfl,
      fun g g' gr gr' h h' _ => by rw [(hgroup h).1, (hgroup h').1]⟩,
      fun e he => absurd he List.not_mem_nil, fun a r h => by rw [hanna h]; rfl,
      fun a r h => by rw [hanna h]; decide⟩
    hready (by decide +kernel)
    (fun a _ r h => by
      rw [hanna h]
      exact ⟨hword (by decide) (by decide +kernel), by decide,
        hword (by decide) (by decide +kernel)⟩)
  have hfailed : host'.failed = [] := by
    have hlog : (jailusers plainUsermod smallGroup [] srvJail.text "/bin/sh".toList
        ["anna".toList] smallHost).toOption.map (fun e => e.2.failed) = some [] := by
      decide +kernel
    rw [hrun] at hlog
    exact Option.some.inj hlog
  refine ⟨host', hrun, hfailed, (hclaim hfailed).mpr ⟨⟨by decide +kernel, by decide +kernel⟩,
    fun a _ _ r h => ?_⟩⟩
  rw [hanna h]
  exact ⟨anna.dir.text, .outside (by decide), fun h => absurd h (by decide)⟩

end Jailkit.Check
