import Jailkit.Tools.JailUserRun

/-!
jk_jailuser and the passwd file of the system: how its users get their new home and the shell
jk_chrootsh. `usermod` itself is not part of the repository.
-/
namespace Jailkit.Tools

open JkLib

structure Field where
  text : Text
  oneField : ':' ∉ text
  oneLine : '\n' ∉ text

structure UserRecord where
  name : Name
  passwd : Field
  uid : Nat
  gid : Nat
  gecos : Field
  dir : Field
  shell : Field

abbrev UserTable := List UserRecord

def UserRecord.fields (r : UserRecord) : List Text :=
  [r.name.text, r.passwd.text, pyStr r.uid, pyStr r.gid, r.gecos.text, r.dir.text, r.shell.text]

def UserRecord.line (r : UserRecord) : Text := join ':' r.fields

def UserTable.text (t : UserTable) : Text := t.flatMap fun r => r.line ++ ['\n']

def UserRecord.account (r : UserRecord) : Account := ⟨r.uid, r.gid, r.gecos.text, r.dir.text⟩

/-- The C library takes the first line of a name. -/
def UserTable.getpwnam (t : UserTable) (user : Text) : Option UserRecord :=
  t.find? fun r => r.name.text = user

def UserTable.databases (t : UserTable) (getgrgid : Nat → Option Group) : Databases where
  getpwnam user := (t.getpwnam user).map UserRecord.account
  getgrgid := getgrgid

/-- The first line of that name gets the home and the shell. -/
def UserTable.rehome (user : Text) (home shell : Field) : UserTable → UserTable
  | [] => []
  | r :: t =>
      if r.name.text = user then { r with dir := home, shell := shell } :: t
      else r :: UserTable.rehome user home shell t

def chrootsh : Text := "/usr/sbin/jk_chrootsh".toList

def usermodCommand (user home shell : Text) : Text :=
  "usermod -d ".toList ++ home ++ " -s ".toList ++ shell ++ [' '] ++ user

/-- `os.system`, with what the command leaves of the system's passwd file. -/
abbrev OsSystem := Text → UserTable → Nat × UserTable

/-- `moduser` on Linux. -/
def moduser (system : OsSystem) (table : UserTable) (user home shell : Text) : Nat × UserTable :=
  let (status, table) := system (usermodCommand user home shell) table
  (if status ≠ 0 then 0 else 1, table)

/-- The system's passwd file, the two files of the jail, and the users that are reported as
not modified. -/
structure Host where
  table : UserTable
  files : JailFiles
  failed : List Text

/-- The part of `jailuser` that changes the shell and the home. -/
def changeHome (system : OsSystem) (jail user : Text) (pw : UserRecord) (host : Host) : Host :=
  let newhome := jailuserHome jail pw.dir.text
  if striptrailingslash pw.dir.text ≠ newhome ∨ pw.shell.text ≠ chrootsh then
    let (ret, table) := moduser system host.table user newhome chrootsh
    { host with table := table, failed := if ret = 0 then host.failed ++ [user] else host.failed }
  else host

/-- `jailuser` without the move of the home. -/
def jailuser (system : OsSystem) (getgrgid : Nat → Option Group) (groups : List ListedGroup)
    (jail shell user : Text) (host : Host) : Except AccountExn (AccountsEnd × Host) :=
  match host.table.getpwnam user with
  | none => .error .keyError
  | some pw => do
      let (outcome, files) ←
        jailuserAccounts (host.table.databases getgrgid) groups jail shell user host.files
      let host := { host with files := files }
      if outcome = .goesOn then do
        let _ ← dirinjail pw.dir.text (slashed jail)
        pure (outcome, changeHome system jail user pw host)
      else pure (outcome, host)

def jailusers (system : OsSystem) (getgrgid : Nat → Option Group) (groups : List ListedGroup)
    (jail shell : Text) : List Text → Host → Except AccountExn (Option Nat × Host)
  | [], host => .ok (none, host)
  | username :: args, host =>
      if (host.table.getpwnam username).isSome then do
        let (outcome, host) ← jailuser system getgrgid groups jail shell username host
        match outcome with
        | .exits status => pure (some status, host)
        | _ => jailusers system getgrgid groups jail shell args host
      else jailusers system getgrgid groups jail shell args host

/-- The shell takes such a text as one word, as it stands. -/
structure ShellWord (t : Text) : Prop where
  nonempty : t ≠ []
  plain : ∀ c ∈ t, c.isAlphanum = true ∨ c ∈ "/._-".toList

/-- `usermod`: with the status 0 the user has the new home and the new shell, with another
one nothing has changed. -/
structure Usermod (system : OsSystem) : Prop where
  modifies : ∀ (user : Text) (home shell : Field) (table : UserTable), ShellWord user →
    user.head? ≠ some '-' → ShellWord home.text → ShellWord shell.text →
    (system (usermodCommand user home.text shell.text) table).1 = 0 →
    (system (usermodCommand user home.text shell.text) table).2 = table.rehome user home shell
  fails : ∀ (user : Text) (home shell : Field) (table : UserTable), ShellWord user →
    user.head? ≠ some '-' → ShellWord home.text → ShellWord shell.text →
    (system (usermodCommand user home.text shell.text) table).1 ≠ 0 →
    (system (usermodCommand user home.text shell.text) table).2 = table

section

variable {t : UserTable} {user : Text} {r : UserRecord}

theorem getpwnam_name (h : t.getpwnam user = some r) : r.name.text = user := by
  have hfound := List.find?_some h
  simpa using hfound

/-- The change is seen under that name only. -/
theorem getpwnam_rehome (t : UserTable) (user user' : Text) (home shell : Field) :
    (t.rehome user home shell).getpwnam user' =
      (t.getpwnam user').map fun r =>
        if user' = user then { r with dir := home, shell := shell } else r := by
  induction t with
  | nil => rfl
  | cons e t ih =>
      simp only [UserTable.getpwnam] at ih ⊢
      rw [UserTable.rehome]
      by_cases hfirst : e.name.text = user'
      · rw [List.find?_cons_of_pos (by simpa using hfirst), ← hfirst]
        split
        · rw [List.find?_cons_of_pos (by simp)]
          rfl
        · rw [List.find?_cons_of_pos (by simp)]
          rfl
      · rw [List.find?_cons_of_neg (by simpa using hfirst)]
        split
        next hname =>
          have hne : user' ≠ user := fun heq => hfirst (hname.trans heq.symm)
          rw [List.find?_cons_of_neg (by simpa using hfirst)]
          simp [hne]
        next =>
          rw [List.find?_cons_of_neg (by simpa using hfirst), ih]

end

section

variable {jail : JailPath} {home : Text}

theorem mem_striptrailingslash {c : Char} {t : Text} (h : c ∈ striptrailingslash t) : c ∈ t := by
  rw [striptrailingslash] at h
  split at h
  · exact List.dropLast_subset _ h
  · exact h

theorem mem_restOf {c : Char} (h : c ∈ restOf jail home) : c ∈ home := by
  rw [restOf] at h
  split at h
  · split at h
    · exact List.mem_of_mem_drop h
    · exact List.mem_of_mem_drop h
  · exact h

theorem mem_jailuserHome {c : Char} (h : c ∈ jailuserHome jail.text home) :
    c ∈ jail.text ∨ c ∈ home ∨ c = '.' := by
  rw [jailuserHome_eq, List.mem_append, List.mem_cons, List.mem_cons] at h
  rcases h with h | h | h | h
  · exact Or.inl (List.dropLast_subset _ h)
  · refine Or.inl ?_
    rw [jail.text_eq, h]
    simp
  · exact Or.inr (Or.inr h)
  · exact Or.inr (Or.inl (mem_restOf (mem_striptrailingslash h)))

theorem mem_addusertojailHome {c : Char} {jail home : Text}
    (h : c ∈ addusertojailHome jail home) : c ∈ home := by
  simp only [addusertojailHome] at h
  split at h
  · split at h
    · exact List.mem_of_mem_drop h
    · exact List.mem_of_mem_drop h
  · exact h

/-- The new home as a field, from a jail and a home without a colon and a line end. -/
def newHome (jail : JailPath) (hcolon : ':' ∉ jail.text) (hline : '\n' ∉ jail.text)
    (home : Field) : Field where
  text := jailuserHome jail.text home.text
  oneField h := (mem_jailuserHome h).elim hcolon
    fun h => h.elim home.oneField (by decide)
  oneLine h := (mem_jailuserHome h).elim hline
    fun h => h.elim home.oneLine (by decide)

def chrootshField : Field := ⟨chrootsh, by decide +kernel, by decide +kernel⟩

theorem shellWord_jailuserHome (hjail : ShellWord jail.text) (hhome : ShellWord home) :
    ShellWord (jailuserHome jail.text home) where
  nonempty h := by
    rw [jailuserHome_eq] at h
    simp at h
  plain c hc := by
    rcases mem_jailuserHome hc with hc | hc | hc
    · exact hjail.plain c hc
    · exact hhome.plain c hc
    · rw [hc]
      exact Or.inr (by decide)

/-- The two homes that are written down are the same in the jail. -/
theorem sameHome_iff (h3 : 3 ≤ jail.dir.length) (hdir : jail.dir.getLast? ≠ some '/') :
    addusertojailHome jail.text home = striptrailingslash (restOf jail home) ↔
      ∃ h, HomeInJail jail.dir home h ∧ h.getLast? ≠ some '/' := by
  constructor
  · intro heq
    by_cases hin : ∃ h, HomeInJail jail.dir home h
    · have hsame := (inJail_eq_iff jail home hdir).mpr hin
      obtain ⟨h, hin⟩ := hin
      refine ⟨h, hin, ?_⟩
      rw [addusertojailHome_eq jail home hsame, restOf_eq jail hdir hin] at heq
      rcases striptrailingslash_cases h with ⟨-, hlast⟩ | hslash
      · exact hlast
      · have hlen := congrArg List.length heq
        have hlong := congrArg List.length hslash
        rw [List.length_append, List.length_singleton] at hlong
        omega
    · have hne := not_dirsEqual_beginning jail home h3 hdir hin
      rw [heq, Bool.eq_false_iff] at hne
      exact absurd ((dirsEqual_iff _ _).mpr (Or.inl rfl)) hne
  · rintro ⟨h, hin, hlast⟩
    have hsame := (inJail_eq_iff jail home hdir).mpr ⟨h, hin⟩
    rw [addusertojailHome_eq jail home hsame, restOf_eq jail hdir hin,
      striptrailingslash_of_ne hlast]

theorem length_striptrailingslash (t : Text) :
    (striptrailingslash t).length ≤ t.length ∧ t.length ≤ (striptrailingslash t).length + 1 := by
  rcases striptrailingslash_cases t with ⟨h, -⟩ | h
  · rw [h]
    omega
  · have hlen := congrArg List.length h
    rw [List.length_append, List.length_singleton] at hlen
    omega

/-- A home that `jailuser` leaves as it is has the jail's separator. -/
theorem marked_of_unchanged (h : striptrailingslash home = jailuserHome jail.text home) :
    ∃ h, home = jail.dir ++ '/' :: '.' :: h ∧ h.head? = some '/' := by
  by_cases hmarked : home.take (jail.dir.length + 3) = jail.dir ++ "/./".toList
  · refine ⟨'/' :: home.drop (jail.dir.length + 3), ?_, rfl⟩
    have hsplit := (List.take_append_drop (jail.dir.length + 3) home).symm
    rw [hmarked, List.append_assoc] at hsplit
    exact hsplit
  · have hrest : home.length ≤ jail.dir.length + (restOf jail home).length := by
      rw [restOf, if_neg hmarked]
      split
      · rw [List.length_drop]
        omega
      · omega
    have hlen := congrArg List.length h
    rw [jailuserHome_eq, List.length_append, List.length_cons, List.length_cons] at hlen
    have hshort := length_striptrailingslash (restOf jail home)
    have hlong := length_striptrailingslash home
    omega

end

/-- The groups that a run meets are those of the system, and each user has a home. -/
structure KnownGroups (getgrgid : Nat → Option Group) (groups : List ListedGroup)
    (t : UserTable) : Prop where
  unambiguous : (t.databases getgrgid).Unambiguous
  listed : ∀ e ∈ groups, getgrgid e.group.gr_gid = some e.group
  primary : ∀ user r, t.getpwnam user = some r → (getgrgid r.gid).isSome
  homes : ∀ user r, t.getpwnam user = some r → r.dir.text ≠ []

section

variable {system : OsSystem} {getgrgid : Nat → Option Group} {groups : List ListedGroup}
  {jail : JailPath} {shell : Text} {t : UserTable} {host : Host} {r : UserRecord} {user : Name}

theorem databases_getpwnam {a : Text} {pw : Account}
    (h : (t.databases getgrgid).getpwnam a = some pw) :
    ∃ r, t.getpwnam a = some r ∧ pw = r.account := by
  obtain ⟨r, hr, hpw⟩ := Option.map_eq_some_iff.mp h
  exact ⟨r, hr, hpw.symm⟩

theorem newline_not_mem_record (r : UserRecord) (jail : Text) (hshell : '\n' ∉ shell) :
    '\n' ∉ passwdEntry jail r.name.text shell r.account := by
  intro h
  simp only [passwdEntry, List.mem_append] at h
  rcases h with (((((((((h | h) | h) | h) | h) | h) | h) | h) | h) | h) | h
  · exact r.name.oneLine h
  · exact absurd h (by decide)
  · exact not_mem_pyStr (by decide) _ h
  · exact absurd h (by decide)
  · exact not_mem_pyStr (by decide) _ h
  · exact absurd h (by decide)
  · exact r.gecos.oneLine h
  · exact absurd h (by decide)
  · exact r.dir.oneLine (mem_addusertojailHome h)
  · exact absurd h (by decide)
  · exact hshell h

theorem systemTables (h : KnownGroups getgrgid groups t) (jail : Text) (hshell : '\n' ∉ shell) :
    SystemTables (t.databases getgrgid) groups jail shell where
  unambiguous := h.unambiguous
  listed := h.listed
  named a ha := by
    obtain ⟨pw, hpw⟩ := Option.isSome_iff_exists.mp ha
    obtain ⟨r, hr, -⟩ := databases_getpwnam hpw
    exact ⟨r.name, getpwnam_name hr⟩
  primary a pw hpw := by
    obtain ⟨r, hr, rfl⟩ := databases_getpwnam hpw
    exact h.primary a r hr
  homes a pw hpw := by
    obtain ⟨r, hr, rfl⟩ := databases_getpwnam hpw
    exact h.homes a r hr
  oneLine a pw hpw := by
    obtain ⟨r, hr, rfl⟩ := databases_getpwnam hpw
    rw [← getpwnam_name hr]
    exact newline_not_mem_record r _ hshell

theorem knownGroups_rehome (h : KnownGroups getgrgid groups t) (a : Text) {home : Field}
    (hhome : home.text ≠ []) (shell : Field) :
    KnownGroups getgrgid groups (t.rehome a home shell) := by
  have hfound : ∀ a' r, (t.rehome a home shell).getpwnam a' = some r →
      ∃ r', t.getpwnam a' = some r' ∧ r.gid = r'.gid ∧ (r.dir = r'.dir ∨ r.dir = home) := by
    intro a' r hr
    rw [getpwnam_rehome] at hr
    obtain ⟨r', hr', heq⟩ := Option.map_eq_some_iff.mp hr
    refine ⟨r', hr', ?_⟩
    rw [← heq]
    split
    · exact ⟨rfl, Or.inr rfl⟩
    · exact ⟨rfl, Or.inl rfl⟩
  refine ⟨⟨h.unambiguous.number, h.unambiguous.name⟩, h.listed, fun a' r hr => ?_, fun a' r hr => ?_⟩
  · obtain ⟨r', hr', hgid, -⟩ := hfound a' r hr
    rw [hgid]
    exact h.primary a' r' hr'
  · obtain ⟨r', hr', -, hdir⟩ := hfound a' r hr
    cases hdir with
    | inl hsame =>
        rw [hsame]
        exact h.homes a' r' hr'
    | inr hnew => rwa [hnew]

theorem passwd_of_accounts {db : Databases} {jail a : Text} {f f' : JailFiles}
    (h : jailuserAccounts db groups jail shell a f = .ok (.goesOn, f')) :
    ∃ ret, addusertojail db f.passwd (slashed jail) a shell = .ok (ret, f'.passwd) := by
  rw [jailuserAccounts] at h
  cases hpw : db.getpwnam a with
  | none =>
      rw [hpw] at h
      cases h
  | some pw =>
      rw [hpw] at h
      cases hadd : addusertojail db f.passwd (slashed jail) a shell with
      | error e => simp [hadd, bind, Except.bind] at h
      | ok r =>
          obtain ⟨ret, passwd⟩ := r
          refine ⟨ret, ?_⟩
          simp only [hadd, bind, Except.bind] at h
          split at h
          · simp [pure, Except.pure] at h
          · cases hgroup : addgrouptojail db f.group pw.pw_gid none with
            | error e => simp [hgroup] at h
            | ok r =>
                obtain ⟨ret', group⟩ := r
                simp only [hgroup] at h
                split at h
                · simp [pure, Except.pure] at h
                · cases hloop : groupsLoop db a groups group with
                  | error e => simp [hloop] at h
                  | ok r =>
                      simp only [hloop, pure, Except.pure, Except.ok.injEq,
                        Prod.mk.injEq] at h
                      rw [← h.2]

theorem addusertojail_new {db : Databases} {file file' : PyFile} {jail a : Text} {pw : Account}
    {ret : Nat} (hopen : file.denied = false) (hpw : db.getpwnam a = some pw)
    (hnew : testUserExist a file.content = false)
    (h : addusertojail db file jail a shell = .ok (ret, file')) :
    file'.content = some (file.content.getD [] ++ (passwdEntry jail a shell pw ++ ['\n'])) := by
  by_cases hdir : pw.pw_dir = []
  · simp [addusertojail_homeless hpw hdir, hnew] at h
  · simp only [addusertojail_home hpw hdir, hnew, appendEntry, PyFile.append, hopen,
      Bool.false_eq_true, if_false, Except.ok.injEq, Prod.mk.injEq] at h
    rw [← h.2]

theorem jailPath_slashed (jail : JailPath) : slashed jail.text = jail.text :=
  if_neg fun h => h jail.slash

/-- What one round makes of the jail's files for a new user. -/
structure Registers (getgrgid : Nat → Option Group) (jail : JailPath) (shell : Text)
    (r : UserRecord) (table : UserTable) (f f' : JailFiles) : Prop where
  ready : ∃ t, ReadyFiles (table.databases getgrgid) f' t
  line : f'.passwd.content = some (f.passwd.content.getD [] ++
    (passwdEntry jail.text r.name.text shell r.account ++ ['\n']))

theorem jailuser_new (hgroups : KnownGroups getgrgid groups host.table) (hshell : '\n' ∉ shell)
    (hready : ∃ t, ReadyFiles (host.table.databases getgrgid) host.files t)
    (hr : host.table.getpwnam user.text = some r)
    (hnew : testUserExist user.text host.files.passwd.content = false) :
    ∃ files, jailuser system getgrgid groups jail.text shell user.text host =
        .ok (.goesOn, changeHome system jail.text user.text r { host with files := files }) ∧
      Registers getgrgid jail shell r host.table host.files files := by
  have hsystem := systemTables hgroups jail.text hshell
  have hpw : (host.table.databases getgrgid).getpwnam user.text = some r.account :=
    congrArg (Option.map UserRecord.account) hr
  have hname : r.name = user := Name.eq_of_text (getpwnam_name hr)
  obtain ⟨t, hready⟩ := hready
  obtain ⟨gr, hgr⟩ := Option.isSome_iff_exists.mp (hsystem.primary _ _ hpw)
  obtain ⟨files, t', hrun, henters⟩ := jailuserAccounts_enters hsystem.unambiguous hsystem.listed
    hpw (hsystem.homes _ _ hpw) hgr (hsystem.oneLine _ _ hpw) hready
  obtain ⟨ret, hadded⟩ := passwd_of_accounts hrun
  have hdir : r.dir.text ≠ [] := hgroups.homes _ _ hr
  refine ⟨files, ?_, ⟨t', henters.ready⟩, ?_⟩
  · simp only [jailuser, hr, hrun, bind, Except.bind, pure, Except.pure, if_true, dirinjail, hdir,
      if_false]
  · rw [hname, addusertojail_new hready.passwd.opens hpw hnew hadded, jailPath_slashed]

structure PlainWords (jail : JailPath) (r : UserRecord) : Prop where
  user : ShellWord r.name.text
  noOption : r.name.text.head? ≠ some '-'
  home : ShellWord r.dir.text

theorem shellWord_fields {w : Text} (h : ShellWord w) : ':' ∉ w ∧ '\n' ∉ w :=
  ⟨fun hc => absurd (h.plain _ hc) (by decide), fun hc => absurd (h.plain _ hc) (by decide)⟩

/-- The home that the record has after the round. -/
def changedRecord (jail : JailPath) (hjail : ShellWord jail.text) (r : UserRecord) : UserRecord :=
  if striptrailingslash r.dir.text ≠ jailuserHome jail.text r.dir.text ∨ r.shell.text ≠ chrootsh
  then { r with
    dir := newHome jail (shellWord_fields hjail).1 (shellWord_fields hjail).2 r.dir
    shell := chrootshField }
  else r

/-- What one round makes of the system's table, if the user has not been reported. -/
structure Rehomes (jail : JailPath) (hjail : ShellWord jail.text) (r : UserRecord)
    (host host' : Host) : Prop where
  files : host'.files = host.files
  groups : ∀ getgrgid groups, KnownGroups getgrgid groups host.table →
    KnownGroups getgrgid groups host'.table
  unfailed : host'.failed = [] → host.failed = [] ∧
    host'.table.getpwnam r.name.text = some (changedRecord jail hjail r)
  others : ∀ a, a ≠ r.name.text → host'.table.getpwnam a = host.table.getpwnam a

theorem shellWord_chrootsh : ShellWord chrootsh :=
  ⟨by decide, by
    have hall : chrootsh.all fun c => c.isAlphanum || decide (c ∈ "/._-".toList) := by
      decide +kernel
    simpa using hall⟩

theorem changeHome_rehomes (hsystem : Usermod system) (hjail : ShellWord jail.text)
    (hplain : PlainWords jail r) (hr : host.table.getpwnam r.name.text = some r) :
    Rehomes jail hjail r host (changeHome system jail.text r.name.text r host) := by
  have hword := shellWord_jailuserHome hjail hplain.home
  have hmodifies := hsystem.modifies r.name.text
    (newHome jail (shellWord_fields hjail).1 (shellWord_fields hjail).2 r.dir) chrootshField
    host.table hplain.user hplain.noOption hword shellWord_chrootsh
  have hfails := hsystem.fails r.name.text
    (newHome jail (shellWord_fields hjail).1 (shellWord_fields hjail).2 r.dir) chrootshField
    host.table hplain.user hplain.noOption hword shellWord_chrootsh
  rw [changeHome]
  split
  next hchange =>
    simp only [moduser]
    by_cases hstatus : (system (usermodCommand r.name.text (jailuserHome jail.text r.dir.text)
      chrootsh) host.table).1 = 0
    · have htable := hmodifies hstatus
      have hsame : (system (usermodCommand r.name.text (jailuserHome jail.text r.dir.text)
          chrootsh) host.table).2 = host.table.rehome r.name.text
            (newHome jail (shellWord_fields hjail).1 (shellWord_fields hjail).2 r.dir)
            chrootshField := htable
      refine ⟨rfl, fun g gs h => ?_, fun hnone => ⟨?_, ?_⟩, fun a ha => ?_⟩
      · rw [hsame]
        exact knownGroups_rehome h _ hword.nonempty _
      · simpa [hstatus] using hnone
      · rw [hsame, getpwnam_rehome, hr, changedRecord, if_pos hchange]
        simp
      · rw [hsame, getpwnam_rehome]
        simp [ha]
    · have htable : (system (usermodCommand r.name.text (jailuserHome jail.text r.dir.text)
          chrootsh) host.table).2 = host.table := hfails hstatus
      refine ⟨rfl, fun g gs h => ?_, fun hnone => ?_, fun a ha => ?_⟩
      · rw [htable]
        exact h
      · simp [hstatus] at hnone
      · rw [htable]
  next hsame =>
    refine ⟨rfl, fun g gs h => h, fun hnone => ⟨hnone, ?_⟩, fun a _ => rfl⟩
    rw [hr, changedRecord, if_neg hsame]

end

end Jailkit.Tools
