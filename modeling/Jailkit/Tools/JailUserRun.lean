import Jailkit.Tools.GroupTable

/-!
A whole run of jk_jailuser over its users, as far as the passwd and the group file of the jail
go: who is in which group when it is over.
-/
namespace Jailkit.Tools

open JkLib

structure ListedGroup where
  group : Group
  gr_mem : List Text

structure JailFiles where
  passwd : PyFile
  group : PyFile

/-- How `jailuser` comes out of the part that edits the two files. -/
inductive AccountsEnd where
  | exits (status : Nat)
  | returns
  | goesOn
  deriving DecidableEq, Repr

def groupsLoop (db : Databases) (user : Text) : List ListedGroup → PyFile → Edit
  | [], file => .ok (1, file)
  | gr :: groups, file =>
      if user ∈ gr.gr_mem then do
        let (ret, file) ← addusertogroupinjail db file gr.group.gr_gid user
        if ret = 0 then pure (0, file) else groupsLoop db user groups file
      else groupsLoop db user groups file

/-- `jailuser` up to the change of the shell and the home. -/
def jailuserAccounts (db : Databases) (groups : List ListedGroup) (jail shell user : Text)
    (f : JailFiles) : Except AccountExn (AccountsEnd × JailFiles) :=
  match db.getpwnam user with
  | none => .error .keyError
  | some pw => do
      let (ret, passwd) ← addusertojail db f.passwd (slashed jail) user shell
      if ret = 0 then pure (.exits 2, ⟨passwd, f.group⟩)
      else do
        let (ret, group) ← addgrouptojail db f.group pw.pw_gid none
        if ret = 0 then pure (.returns, ⟨passwd, group⟩)
        else do
          let (ret, group) ← groupsLoop db user groups group
          pure (if ret = 0 then .returns else .goesOn, ⟨passwd, group⟩)

/-- The loop of `main` over the users, and the status if a user ends it. -/
def usersLoop (db : Databases) (groups : List ListedGroup) (jail shell : Text) :
    List Text → JailFiles → Except AccountExn (Option Nat × JailFiles)
  | [], f => .ok (none, f)
  | username :: args, f =>
      if (db.getpwnam username).isSome then do
        let (outcome, f) ← jailuserAccounts db groups jail shell username f
        match outcome with
        | .exits status => pure (some status, f)
        | _ => usersLoop db groups jail shell args f
      else usersLoop db groups jail shell args f

/-- In the system's table a name and a number belong together. -/
structure Databases.Unambiguous (db : Databases) : Prop where
  number : ∀ g gr, db.getgrgid g = some gr → gr.gr_gid = g
  name : ∀ g g' gr gr', db.getgrgid g = some gr → db.getgrgid g' = some gr' →
    gr.gr_name = gr'.gr_name → g = g'

/-- The jail's table has no group of the system under another name or number. -/
def GroupTable.Matches (db : Databases) (t : GroupTable) : Prop :=
  ∀ r ∈ t, ∀ g gr, db.getgrgid g = some gr → (r.name = gr.gr_name ↔ r.gid = g)

def ListedIn (groups : List ListedGroup) (user : Text) (gid : Nat) : Prop :=
  ∃ e ∈ groups, e.group.gr_gid = gid ∧ user ∈ e.gr_mem

section

variable {db : Databases} {t t' : GroupTable} {gr : Group} {group_id : Nat} {user : Name}
  {groups : List ListedGroup} {file : PyFile}

theorem matches_of_keys
    (hkeys : (t'.map fun r => (r.name, r.gid)) = t.map (fun r => (r.name, r.gid)))
    (h : t.Matches db) : t'.Matches db := by
  intro r hr g gr hgr
  have hmem : (r.name, r.gid) ∈ t'.map fun r => (r.name, r.gid) := List.mem_map_of_mem hr
  rw [hkeys] at hmem
  obtain ⟨r₀, hr₀, heq⟩ := List.mem_map.mp hmem
  rw [← (Prod.mk.inj heq).1, ← (Prod.mk.inj heq).2]
  exact h r₀ hr₀ g gr hgr

theorem has_of_keys
    (hkeys : (t'.map fun r => (r.name, r.gid)) = t.map (fun r => (r.name, r.gid))) (gid : Nat) :
    t'.Has gid ↔ t.Has gid := by
  have hmap : ∀ t : GroupTable, t.Has gid ↔
      ∃ k ∈ t.map fun r => (r.name, r.gid), k.2 = gid := by
    intro t
    simp [GroupTable.Has]
  rw [hmap, hkeys, ← hmap]

theorem named_iff_has (hgr : db.getgrgid group_id = some gr) (h : t.Matches db) :
    (∃ r ∈ t, r.name = gr.gr_name) ↔ t.Has group_id :=
  exists_congr fun r => and_congr_right fun hr => h r hr group_id gr hgr

theorem withGroup_matches (hdb : db.Unambiguous) (hgr : db.getgrgid group_id = some gr)
    (h : t.Matches db) (ms : List Name) : (t.withGroup gr ms).Matches db := by
  rw [GroupTable.withGroup]
  split
  · exact h
  · intro r hr g gr' hgr'
    cases List.mem_append.mp hr with
    | inl hr => exact h r hr g gr' hgr'
    | inr hr =>
        rw [List.mem_singleton.mp hr, hdb.number group_id gr hgr]
        constructor
        · exact hdb.name group_id g gr gr' hgr hgr'
        · intro heq
          have heq : group_id = g := heq
          rw [heq] at hgr
          exact congrArg Group.gr_name (Option.some.inj (hgr.symm.trans hgr'))

theorem withGroup_has (hdb : db.Unambiguous) (hgr : db.getgrgid group_id = some gr)
    (h : t.Matches db) (ms : List Name) (gid : Nat) :
    (t.withGroup gr ms).Has gid ↔ t.Has gid ∨ gid = group_id := by
  rw [GroupTable.withGroup]
  split
  next hin =>
    refine ⟨Or.inl, fun hgid => hgid.elim id fun heq => ?_⟩
    rw [heq]
    exact (named_iff_has hgr h).mp hin
  next =>
    simp [GroupTable.Has, or_and_right, exists_or, hdb.number group_id gr hgr, eq_comm]

theorem withGroup_member (hdb : db.Unambiguous) (hgr : db.getgrgid group_id = some gr)
    (ms : List Name) (gid : Nat) (u : Name) :
    (t.withGroup gr ms).Member gid u →
      t.Member gid u ∨ gid = group_id ∧ u ∈ ms := by
  rw [GroupTable.withGroup]
  split
  · exact Or.inl
  · rintro ⟨r, hr, hgid, hu⟩
    cases List.mem_append.mp hr with
    | inl hr => exact Or.inl ⟨r, hr, hgid, hu⟩
    | inr hr =>
        rw [List.mem_singleton.mp hr] at hgid hu
        exact Or.inr ⟨by rw [← hgid, ← hdb.number group_id gr hgr], hu⟩

theorem member_withGroup (gr : Group) (ms : List Name) {gid : Nat} {u : Name}
    (h : t.Member gid u) : (t.withGroup gr ms).Member gid u := by
  rw [GroupTable.withGroup]
  split
  · exact h
  · obtain ⟨r, hr, hmem⟩ := h
    exact ⟨r, List.mem_append_left _ hr, hmem⟩

/-- What a part of the run has made of the table: who has come into which group, and which
groups there are now. -/
structure Enrols (db : Databases) (new : Nat → Name → Prop) (made : Nat → Prop)
    (t t' : GroupTable) : Prop where
  grown : t.Grown t'
  kept : t'.Matches db
  member : ∀ gid u, t'.Member gid u ↔ t.Member gid u ∨ new gid u
  has : ∀ gid, t'.Has gid ↔ t.Has gid ∨ made gid
  front : ∀ gid u, new gid u → t'.InFirst gid u

variable {new new' : Nat → Name → Prop} {made made' : Nat → Prop}

theorem enrols_none (h : t.Matches db) :
    Enrols db (fun _ _ => False) (fun _ => False) t t :=
  ⟨grown_refl t, h, fun _ _ => (or_false _).symm.to_iff, fun _ => (or_false _).symm.to_iff,
    fun _ _ h => h.elim⟩

theorem enrols_trans {t'' : GroupTable} (h : Enrols db new made t t')
    (h' : Enrols db new' made' t' t'') :
    Enrols db (fun g u => new g u ∨ new' g u) (fun g => made g ∨ made' g) t t'' where
  grown := grown_trans h.grown h'.grown
  kept := h'.kept
  member gid u := by rw [h'.member, h.member, or_assoc]
  has gid := by rw [h'.has, h.has, or_assoc]
  front gid u hu := hu.elim (fun hu => inFirst_grown h'.grown (h.front gid u hu)) (h'.front gid u)

theorem enrols_congr (h : Enrols db new made t t') (hnew : ∀ g u, new g u ↔ new' g u)
    (hmade : ∀ g, made g ↔ made' g) : Enrols db new' made' t t' where
  grown := h.grown
  kept := h.kept
  member gid u := by rw [h.member, hnew]
  has gid := by rw [h.has, hmade]
  front gid u hu := h.front gid u ((hnew gid u).mpr hu)

/-- The call succeeds, and the file holds the table that it makes. -/
def Leads (db : Databases) (new : Nat → Name → Prop) (made : Nat → Prop) (t : GroupTable)
    (r : Edit) : Prop :=
  ∃ file t', r = .ok (1, file) ∧ file.denied = false ∧ HoldsTable file t' ∧ Enrols db new made t t'

theorem addgrouptojail_leads (hdb : db.Unambiguous) (hgr : db.getgrgid group_id = some gr)
    (hopen : file.denied = false) (hholds : HoldsTable file t) (h : t.Matches db) :
    Leads db (fun _ _ => False) (fun gid => gid = group_id) t
      (addgrouptojail db file group_id none) := by
  obtain ⟨file', heq, hopen', hholds'⟩ := addgrouptojail_table hgr hopen hholds none
  refine ⟨file', _, heq, hopen', hholds', withGroup_grown t gr _, withGroup_matches hdb hgr h _,
    fun gid u => ?_, withGroup_has hdb hgr h _, fun _ _ h => h.elim⟩
  constructor
  · intro hu
    exact (withGroup_member hdb hgr _ gid u hu).imp_right fun hms => List.not_mem_nil hms.2
  · intro hu
    exact member_withGroup gr _ (hu.resolve_right id)

theorem addusertogroupinjail_leads (hdb : db.Unambiguous)
    (hgr : db.getgrgid group_id = some gr) (hopen : file.denied = false)
    (hholds : HoldsTable file t) (h : t.Matches db) :
    Leads db (fun gid u => gid = group_id ∧ u = user) (fun gid => gid = group_id) t
      (addusertogroupinjail db file group_id user.text) := by
  have hhas := withGroup_has hdb hgr h [user]
  obtain ⟨t', hfirst, hgrown, hkeys, hmember⟩ :=
    enterFirst_spec ((hhas group_id).mpr (Or.inr rfl)) user
  refine ⟨{ file with content := some t'.text }, t', ?_, hopen, rfl,
    grown_trans (withGroup_grown t gr _) hgrown,
    matches_of_keys hkeys (withGroup_matches hdb hgr h _), fun gid u => ?_, fun gid => ?_, ?_⟩
  · rw [addusertogroupinjail_table hgr hopen hholds, hfirst]
  · rw [hmember]
    constructor
    · rintro (hu | hu)
      · exact (withGroup_member hdb hgr _ gid u hu).imp_right fun hms =>
          ⟨hms.1, List.mem_singleton.mp hms.2⟩
      · exact Or.inr hu
    · exact Or.imp_left (member_withGroup gr _)
  · rw [has_of_keys hkeys, hhas]
  · rintro gid u ⟨rfl, rfl⟩
    exact enterFirst_inFirst hfirst

theorem groupsLoop_leads (hdb : db.Unambiguous)
    (hlisted : ∀ e ∈ groups, db.getgrgid e.group.gr_gid = some e.group)
    (hopen : file.denied = false) (hholds : HoldsTable file t) (h : t.Matches db) :
    Leads db (fun gid u => u = user ∧ ListedIn groups user.text gid)
      (fun gid => ListedIn groups user.text gid) t (groupsLoop db user.text groups file) := by
  induction groups generalizing file t with
  | nil =>
      refine ⟨file, t, rfl, hopen, hholds, enrols_congr (enrols_none h) (fun g u => ?_) fun g => ?_⟩
      · simp [ListedIn]
      · simp [ListedIn]
  | cons e groups ih =>
      have hrest := fun e he => hlisted e (List.mem_cons_of_mem _ he)
      have hcons : ∀ gid, ListedIn (e :: groups) user.text gid ↔
          e.group.gr_gid = gid ∧ user.text ∈ e.gr_mem ∨ ListedIn groups user.text gid := by
        intro gid
        simp [ListedIn]
      rw [groupsLoop]
      by_cases hin : user.text ∈ e.gr_mem
      · rw [if_pos hin]
        have hstep : Leads db (fun gid u => gid = e.group.gr_gid ∧ u = user) _ t
            (addusertogroupinjail db file e.group.gr_gid user.text) :=
          addusertogroupinjail_leads hdb (hlisted e List.mem_cons_self) hopen hholds h
        obtain ⟨file', t', heq, hopen', hholds', hfirst⟩ := hstep
        obtain ⟨file'', t'', heq', hopen'', hholds'', hthen⟩ :=
          ih hrest hopen' hholds' hfirst.kept
        refine ⟨file'', t'', ?_, hopen'', hholds'',
          enrols_congr (enrols_trans hfirst hthen) (fun g u => ?_) fun g => ?_⟩
        · rw [heq]
          exact heq'
        · rw [hcons]
          simp only [hin, and_true]
          constructor
          · rintro (⟨hg, hu⟩ | ⟨hu, hg⟩)
            · exact ⟨hu, Or.inl hg.symm⟩
            · exact ⟨hu, Or.inr hg⟩
          · rintro ⟨hu, hg | hg⟩
            · exact Or.inl ⟨hg.symm, hu⟩
            · exact Or.inr ⟨hu, hg⟩
        · rw [hcons]
          simp only [hin, and_true]
          exact or_congr_left eq_comm
      · rw [if_neg hin]
        obtain ⟨file', t', heq, hopen', hholds', henrols⟩ := ih hrest hopen hholds h
        refine ⟨file', t', heq, hopen', hholds', enrols_congr henrols (fun g u => ?_) fun g => ?_⟩
        · rw [hcons]
          simp only [hin, and_false, false_or]
        · rw [hcons]
          simp only [hin, and_false, false_or]

/-- A file that can be written and ends with a line. -/
structure Writable (file : PyFile) : Prop where
  opens : file.denied = false
  ends : EndsLine (file.content.getD [])

/-- The lines are still there, and the user is the only one who has come in. -/
structure AddsUser (user : Text) (file file' : PyFile) : Prop where
  writable : Writable file'
  lines : file.lines <+: file'.lines
  users : ∀ n : Name, testUserExist n.text file'.content = true ↔
    testUserExist n.text file.content = true ∨ n.text = user

theorem passwdEntry_names (jail shell : Text) (pw : Account) (n : Name) :
    Names n.text (passwdEntry jail user.text shell pw ++ ['\n']) ↔ n.text = user.text := by
  have hentry : ∃ rest, passwdEntry jail user.text shell pw ++ ['\n'] = user.text ++ ':' :: rest :=
    ⟨_, by simp only [passwdEntry, List.append_assoc]; rfl⟩
  obtain ⟨rest, hentry⟩ := hentry
  rw [Names, hentry, List.splitOn_append_cons_self_of_not_mem user.oneField, List.head?_cons,
    Option.some.injEq]
  exact eq_comm

theorem testUserExist_append {t line : Text} (hends : EndsLine t) (hline : '\n' ∉ line)
    (hne : line ≠ []) (n : Name) :
    testUserExist n.text (some (t ++ (line ++ ['\n']))) = true ↔
      testUserExist n.text (some t) = true ∨ Names n.text (line ++ ['\n']) := by
  have hread : readlines (line ++ ['\n']) = [line ++ ['\n']] := (readlines_line hne hline []).2
  rw [testUserExist, testUserExist, testNumitemExist_iff, testNumitemExist_iff,
    readlines_endsLine hends, hread]
  simp only [List.mem_append, List.mem_singleton, or_and_right, exists_or, exists_eq_left]

theorem addusertojail_adds {jail shell : Text} {pw : Account}
    (hpw : db.getpwnam user.text = some pw) (hdir : pw.pw_dir ≠ []) (hfile : Writable file)
    (hline : '\n' ∉ passwdEntry jail user.text shell pw) :
    ∃ file', addusertojail db file jail user.text shell = .ok (1, file') ∧
      AddsUser user.text file file' := by
  rw [addusertojail_home hpw hdir]
  by_cases hseen : testUserExist user.text file.content = true
  · refine ⟨file, if_pos hseen, hfile, List.prefix_rfl, fun n => ⟨Or.inl, fun h => ?_⟩⟩
    refine h.elim id fun heq => ?_
    rw [heq]
    exact hseen
  · have hne : passwdEntry jail user.text shell pw ≠ [] := by simp [passwdEntry, user.nonempty]
    rw [if_neg hseen]
    simp only [appendEntry, PyFile.append, hfile.opens, Bool.false_eq_true, if_false]
    refine ⟨_, rfl, ⟨rfl, Or.inr ⟨_, (List.append_assoc _ _ _).symm⟩⟩, ?_, fun n => ?_⟩
    · refine ⟨[passwdEntry jail user.text shell pw], ?_⟩
      exact ((linesOf_append_iff _ _).mpr ⟨hfile.ends, hline⟩).symm
    · rw [testUserExist_append hfile.ends hline hne, passwdEntry_names]
      rw [testUserExist, testUserExist, ← testNumitemExist_getD]

/-- The files as a run finds them and leaves them. -/
structure ReadyFiles (db : Databases) (f : JailFiles) (t : GroupTable) : Prop where
  passwd : Writable f.passwd
  opens : f.group.denied = false
  holds : HoldsTable f.group t
  kept : t.Matches db

/-- What the groups of the users come to. -/
def InGroup (db : Databases) (groups : List ListedGroup) (user : Text) (gid : Nat) : Prop :=
  (∃ pw, db.getpwnam user = some pw ∧ pw.pw_gid = gid) ∨ ListedIn groups user gid

/-- What the run makes of the two files for these users. -/
structure EntersUsers (db : Databases) (groups : List ListedGroup) (who : Name → Prop)
    (f f' : JailFiles) (t t' : GroupTable) : Prop where
  ready : ReadyFiles db f' t'
  lines : f.passwd.lines <+: f'.passwd.lines
  users : ∀ n : Name, testUserExist n.text f'.passwd.content = true ↔
    testUserExist n.text f.passwd.content = true ∨ who n
  groups : Enrols db (fun gid u => who u ∧ ListedIn groups u.text gid)
    (fun gid => ∃ u, who u ∧ InGroup db groups u.text gid) t t'

variable {jail shell : Text} {f f' f'' : JailFiles} {who who' : Name → Prop}

theorem jailuserAccounts_enters {pw : Account} (hdb : db.Unambiguous)
    (hlisted : ∀ e ∈ groups, db.getgrgid e.group.gr_gid = some e.group)
    (hpw : db.getpwnam user.text = some pw) (hdir : pw.pw_dir ≠ [])
    (hgr : db.getgrgid pw.pw_gid = some gr)
    (hline : '\n' ∉ passwdEntry (slashed jail) user.text shell pw) (h : ReadyFiles db f t) :
    ∃ f' t', jailuserAccounts db groups jail shell user.text f = .ok (.goesOn, f') ∧
      EntersUsers db groups (fun u => u = user) f f' t t' := by
  obtain ⟨passwd, hadded, hadds⟩ := addusertojail_adds hpw hdir h.passwd hline
  obtain ⟨group₁, t₁, hfirst, hopen₁, hholds₁, henrols₁⟩ :=
    addgrouptojail_leads hdb hgr h.opens h.holds h.kept
  have hgroups : Leads db _ _ t₁ (groupsLoop db user.text groups group₁) :=
    groupsLoop_leads hdb hlisted hopen₁ hholds₁ henrols₁.kept
  obtain ⟨group₂, t₂, hloop, hopen₂, hholds₂, henrols₂⟩ := hgroups
  refine ⟨⟨passwd, group₂⟩, t₂, ?_, ⟨hadds.writable, hopen₂, hholds₂, henrols₂.kept⟩,
    hadds.lines, fun n => ?_, enrols_congr (enrols_trans henrols₁ henrols₂) (fun gid u => ?_)
    fun gid => ?_⟩
  · simp only [jailuserAccounts, hpw, hadded, hfirst, hloop, bind, Except.bind, pure,
      Except.pure, Nat.one_ne_zero, if_false]
  · rw [hadds.users]
    exact or_congr_right ⟨Name.eq_of_text, congrArg Name.text⟩
  · rw [false_or]
    exact and_congr_right fun hu => by rw [hu]
  · simp only [InGroup, hpw, Option.some.injEq, exists_eq_left', eq_comm]

theorem entersUsers_trans {t'' : GroupTable} (h : EntersUsers db groups who f f' t t')
    (h' : EntersUsers db groups who' f' f'' t' t'') :
    EntersUsers db groups (fun u => who u ∨ who' u) f f'' t t'' where
  ready := h'.ready
  lines := h.lines.trans h'.lines
  users n := by rw [h'.users, h.users, or_assoc]
  groups := by
    refine enrols_congr (enrols_trans h.groups h'.groups) (fun gid u => ?_) fun gid => ?_
    · rw [or_and_right]
    · simp only [or_and_right, exists_or]

theorem entersUsers_congr (h : EntersUsers db groups who f f' t t') (hwho : ∀ u, who u ↔ who' u) :
    EntersUsers db groups who' f f' t t' := by
  have heq : who = who' := funext fun u => propext (hwho u)
  rwa [← heq]

/-- What jk_jailuser may expect of the system it runs on. -/
structure SystemTables (db : Databases) (groups : List ListedGroup) (jail shell : Text) : Prop where
  unambiguous : db.Unambiguous
  listed : ∀ e ∈ groups, db.getgrgid e.group.gr_gid = some e.group
  named : ∀ a, (db.getpwnam a).isSome → ∃ n : Name, n.text = a
  primary : ∀ a pw, db.getpwnam a = some pw → (db.getgrgid pw.pw_gid).isSome
  homes : ∀ a pw, db.getpwnam a = some pw → pw.pw_dir ≠ []
  oneLine : ∀ a pw, db.getpwnam a = some pw → '\n' ∉ passwdEntry (slashed jail) a shell pw

/-- The run over all users: by induction on the users, the files stay such that the next one
can be entered. -/
theorem usersLoop_enters (hsystem : SystemTables db groups jail shell) (args : List Text)
    (h : ReadyFiles db f t) :
    ∃ f' t', usersLoop db groups jail shell args f = .ok (none, f') ∧
      EntersUsers db groups (fun u => u.text ∈ args ∧ (db.getpwnam u.text).isSome) f f' t t' := by
  induction args generalizing f t with
  | nil =>
      refine ⟨f, t, rfl, h, List.prefix_rfl, fun n => ?_,
        enrols_congr (enrols_none h.kept) (fun g u => ?_) fun g => ?_⟩
      all_goals simp
  | cons username args ih =>
      rw [usersLoop]
      by_cases hexists : (db.getpwnam username).isSome
      · obtain ⟨pw, hpw⟩ := Option.isSome_iff_exists.mp hexists
        obtain ⟨user, rfl⟩ := hsystem.named username hexists
        obtain ⟨gr, hgr⟩ := Option.isSome_iff_exists.mp (hsystem.primary _ pw hpw)
        obtain ⟨f₁, t₁, heq₁, h₁⟩ := jailuserAccounts_enters hsystem.unambiguous
          hsystem.listed hpw (hsystem.homes _ pw hpw) hgr (hsystem.oneLine _ pw hpw) h
        obtain ⟨f₂, t₂, heq₂, h₂⟩ := ih h₁.ready
        refine ⟨f₂, t₂, ?_, entersUsers_congr (entersUsers_trans h₁ h₂) fun u => ?_⟩
        · rw [if_pos hexists, heq₁]
          exact heq₂
        · rw [List.mem_cons, or_and_right]
          refine or_congr_left ⟨fun hu => ?_, fun hu => Name.eq_of_text hu.1⟩
          rw [hu]
          exact ⟨rfl, hexists⟩
      · obtain ⟨f', t', heq, h'⟩ := ih h
        refine ⟨f', t', (if_neg hexists).trans heq, entersUsers_congr h' fun u => ?_⟩
        rw [List.mem_cons, or_and_right]
        refine ⟨Or.inr, fun hu => hu.resolve_left fun hfirst => ?_⟩
        rw [hfirst.1] at hfirst
        exact hexists hfirst.2

end

section

variable {db : Databases} {groups : List ListedGroup} {jail shell : Text} {f : JailFiles}
  {t : GroupTable} {gr : Group} {group_id : Nat} {user : Name} {file : PyFile}

structure NothingLeft (db : Databases) (groups : List ListedGroup) (user : Text) (f : JailFiles)
    (t : GroupTable) : Prop where
  registered : testUserExist user f.passwd.content = true
  primary : ∀ pw, db.getpwnam user = some pw → t.Has pw.pw_gid
  listed : ∀ n : Name, n.text = user → ∀ gid, ListedIn groups user gid → t.InFirst gid n

theorem addgrouptojail_same (hgr : db.getgrgid group_id = some gr) (hholds : HoldsTable file t)
    (h : t.Matches db) (hhas : t.Has group_id) (member : Option Text) :
    addgrouptojail db file group_id member = .ok (1, file) := by
  have hseen := (testGroupExist_table hholds gr.gr_name).mpr ((named_iff_has hgr h).mpr hhas)
  rw [addgrouptojail, hgr]
  exact if_pos hseen

theorem content_of_has {gid : Nat} (hholds : HoldsTable file t) (hhas : t.Has gid) :
    file.content = some t.text := by
  obtain ⟨content, denied⟩ := file
  cases content with
  | none =>
      obtain ⟨r, hr, -⟩ := hhas
      obtain ⟨s, s', rfl⟩ := List.append_of_mem hr
      have hnil : [] = GroupTable.text (s ++ r :: s') := hholds
      rw [text_append, text_cons, GroupRecord.rawLine] at hnil
      simp at hnil
  | some content => exact congrArg some hholds

theorem addusertogroupinjail_same (hgr : db.getgrgid group_id = some gr)
    (hopen : file.denied = false) (hholds : HoldsTable file t) (h : t.Matches db)
    (hin : t.InFirst group_id user) :
    addusertogroupinjail db file group_id user.text = .ok (1, file) := by
  have hhas := has_of_inFirst hin
  have hsame : t.withGroup gr [user] = t := if_pos ((named_iff_has hgr h).mpr hhas)
  rw [addusertogroupinjail_table hgr hopen hholds, hsame, enterFirst_same hin]
  simp only [← content_of_has hholds hhas]

theorem groupsLoop_same (hlisted : ∀ e ∈ groups, db.getgrgid e.group.gr_gid = some e.group)
    (hopen : file.denied = false) (hholds : HoldsTable file t) (h : t.Matches db)
    (hin : ∀ gid, ListedIn groups user.text gid → t.InFirst gid user) :
    groupsLoop db user.text groups file = .ok (1, file) := by
  induction groups with
  | nil => rfl
  | cons e groups ih =>
      have hrest := ih (fun e he => hlisted e (List.mem_cons_of_mem _ he)) fun gid hgid => by
        obtain ⟨e', he', hlist⟩ := hgid
        exact hin gid ⟨e', List.mem_cons_of_mem _ he', hlist⟩
      rw [groupsLoop]
      split
      next huser =>
        rw [addusertogroupinjail_same (hlisted e List.mem_cons_self) hopen hholds h
          (hin _ ⟨e, List.mem_cons_self, rfl, huser⟩)]
        exact hrest
      next => exact hrest

theorem jailuserAccounts_same {pw : Account} (hsystem : SystemTables db groups jail shell)
    (hpw : db.getpwnam user.text = some pw) (h : ReadyFiles db f t)
    (hsettled : NothingLeft db groups user.text f t) :
    jailuserAccounts db groups jail shell user.text f = .ok (.goesOn, f) := by
  obtain ⟨gr, hgr⟩ := Option.isSome_iff_exists.mp (hsystem.primary _ pw hpw)
  have hpasswd : addusertojail db f.passwd (slashed jail) user.text shell = .ok (1, f.passwd) :=
    if_pos hsettled.registered
  have hfirst := addgrouptojail_same hgr h.holds h.kept (hsettled.primary pw hpw) none
  have hloop := groupsLoop_same hsystem.listed h.opens h.holds h.kept (hsettled.listed user rfl)
  simp only [jailuserAccounts, hpw, hpasswd, hfirst, hloop, bind, Except.bind, pure, Except.pure,
    Nat.one_ne_zero, if_false]

theorem usersLoop_same (hsystem : SystemTables db groups jail shell) (h : ReadyFiles db f t)
    {args : List Text}
    (hsettled : ∀ a ∈ args, (db.getpwnam a).isSome → NothingLeft db groups a f t) :
    usersLoop db groups jail shell args f = .ok (none, f) := by
  induction args with
  | nil => rfl
  | cons username args ih =>
      have hrest := ih fun a ha => hsettled a (List.mem_cons_of_mem _ ha)
      rw [usersLoop]
      split
      next hexists =>
        obtain ⟨pw, hpw⟩ := Option.isSome_iff_exists.mp hexists
        obtain ⟨user, rfl⟩ := hsystem.named username hexists
        rw [jailuserAccounts_same hsystem hpw h (hsettled _ List.mem_cons_self hexists)]
        exact hrest
      next => exact hrest

/-- A run settles its users. -/
theorem nothingLeft_of_enters {f' : JailFiles} {t' : GroupTable} {who : Name → Prop}
    (h : EntersUsers db groups who f f' t t') (huser : who user) :
    NothingLeft db groups user.text f' t' where
  registered := (h.users user).mpr (Or.inr huser)
  primary pw hpw := (h.groups.has _).mpr (Or.inr ⟨user, huser, Or.inl ⟨pw, hpw, rfl⟩⟩)
  listed n hn gid hgid := by
    rw [Name.eq_of_text hn]
    exact h.groups.front gid user ⟨huser, hgid⟩

end

/-- When jk_jailuser is through with its users, those that exist are in the jail's passwd file
and are members of just their groups there; nobody else has come in or gone, and no line has
been lost or moved. -/
theorem usersLoop_enrols (db : Databases) (groups : List ListedGroup) (jail shell : Text)
    (args : List Text) (f : JailFiles) (t : GroupTable)
    (hsystem : SystemTables db groups jail shell) (h : ReadyFiles db f t) :
    ∃ f' t', usersLoop db groups jail shell args f = .ok (none, f') ∧
      HoldsTable f'.group t' ∧ t.Grown t' ∧ f.passwd.lines <+: f'.passwd.lines ∧
      (∀ u : Name, testUserExist u.text f'.passwd.content = true ↔
        testUserExist u.text f.passwd.content = true ∨
          u.text ∈ args ∧ (db.getpwnam u.text).isSome) ∧
      (∀ gid u, t'.Member gid u ↔ t.Member gid u ∨
        (u.text ∈ args ∧ (db.getpwnam u.text).isSome) ∧ ListedIn groups u.text gid) ∧
      ∀ gid, t'.Has gid ↔ t.Has gid ∨
        ∃ u : Name, (u.text ∈ args ∧ (db.getpwnam u.text).isSome) ∧
          InGroup db groups u.text gid := by
  obtain ⟨f', t', hrun, hdone⟩ := usersLoop_enters hsystem args h
  exact ⟨f', t', hrun, hdone.ready.holds, hdone.groups.grown, hdone.lines, hdone.users,
    hdone.groups.member, hdone.groups.has⟩

/-- A second run for any of the users leaves both files byte for byte as they are. -/
theorem usersLoop_again (db : Databases) (groups : List ListedGroup) (jail shell : Text)
    (args : List Text) (f : JailFiles) (t : GroupTable)
    (hsystem : SystemTables db groups jail shell) (h : ReadyFiles db f t) :
    ∃ f', usersLoop db groups jail shell args f = .ok (none, f') ∧
      ∀ again, again ⊆ args → usersLoop db groups jail shell again f' = .ok (none, f') := by
  obtain ⟨f', t', hrun, hdone⟩ := usersLoop_enters hsystem args h
  refine ⟨f', hrun, fun again hagain => usersLoop_same hsystem hdone.ready fun a ha hexists => ?_⟩
  obtain ⟨user, rfl⟩ := hsystem.named a hexists
  exact nothingLeft_of_enters hdone ⟨hagain ha, hexists⟩

def carl : Name := ⟨"carl".toList, by decide, by decide, by decide, by decide⟩

def usersGroup : Group := ⟨⟨"users".toList, by decide, by decide, by decide, by decide⟩, 100⟩

def staffGroup : Group := ⟨⟨"staff".toList, by decide, by decide, by decide, by decide⟩, 50⟩

def smallSystem : Databases where
  getpwnam user := if user = carl.text then some ⟨1002, 100, [], "/home/carl".toList⟩ else none
  getgrgid gid := if gid = 100 then some usersGroup else if gid = 50 then some staffGroup else none

def smallGroups : List ListedGroup := [⟨usersGroup, []⟩, ⟨staffGroup, [carl.text]⟩]

def smallFiles : JailFiles where
  passwd := ⟨some "root:x:0:0:root:/root:/bin/sh\n".toList, false⟩
  group := ⟨some "users:x:100:root\n".toList, false⟩

theorem smallSystem_group {gid : Nat} {gr : Group} (h : smallSystem.getgrgid gid = some gr) :
    gid = 100 ∧ gr = usersGroup ∨ gid = 50 ∧ gr = staffGroup := by
  rw [smallSystem] at h
  dsimp only at h
  split at h
  next hgid => exact Or.inl ⟨hgid, (Option.some.inj h).symm⟩
  next =>
    split at h
    next hgid => exact Or.inr ⟨hgid, (Option.some.inj h).symm⟩
    next => cases h

theorem smallSystem_user {user : Text} {pw : Account} (h : smallSystem.getpwnam user = some pw) :
    user = carl.text ∧ pw = ⟨1002, 100, [], "/home/carl".toList⟩ := by
  rw [smallSystem] at h
  dsimp only at h
  split at h
  next huser => exact ⟨huser, (Option.some.inj h).symm⟩
  next => cases h

theorem smallSystem_tables :
    SystemTables smallSystem smallGroups "/jail".toList "/bin/sh".toList where
  unambiguous :=
    { number := fun g gr h => by
        rcases smallSystem_group h with ⟨hg, hgr⟩ | ⟨hg, hgr⟩ <;> rw [hg, hgr] <;> rfl
      name := fun g g' gr gr' h h' hname => by
        rcases smallSystem_group h with ⟨hg, hgr⟩ | ⟨hg, hgr⟩ <;>
          rcases smallSystem_group h' with ⟨hg', hgr'⟩ | ⟨hg', hgr'⟩ <;>
          rw [hgr, hgr'] at hname <;> rw [hg, hg'] <;> exact absurd hname (by decide) }
  listed := fun e he => by
    rcases List.mem_cons.mp he with rfl | he
    · rfl
    · rw [List.mem_singleton.mp he]
      rfl
  named := fun a h => by
    obtain ⟨pw, hpw⟩ := Option.isSome_iff_exists.mp h
    exact ⟨carl, (smallSystem_user hpw).1.symm⟩
  primary := fun a pw h => by
    rw [(smallSystem_user h).2]
    rfl
  homes := fun a pw h => by
    rw [(smallSystem_user h).2]
    decide
  oneLine := fun a pw h => by
    rw [(smallSystem_user h).1, (smallSystem_user h).2]
    decide +kernel

theorem smallFiles_ready :
    ReadyFiles smallSystem smallFiles [⟨usersGroup.gr_name, 100,
      [⟨"root".toList, by decide, by decide, by decide, by decide⟩]⟩] where
  passwd := ⟨rfl, Or.inr ⟨"root:x:0:0:root:/root:/bin/sh".toList, by decide +kernel⟩⟩
  opens := rfl
  holds := by
    rw [HoldsTable]
    decide +kernel
  kept := fun r hr g gr h => by
    rw [List.mem_singleton.mp hr]
    rcases smallSystem_group h with ⟨hg, hgr⟩ | ⟨hg, hgr⟩ <;> rw [hg, hgr] <;> decide

theorem usersLoop_enrols_small :
    ∃ f' t', usersLoop smallSystem smallGroups "/jail".toList "/bin/sh".toList
        ["carl".toList, "dave".toList] smallFiles = .ok (none, f') ∧ HoldsTable f'.group t' ∧
      t'.Member 50 carl ∧ testUserExist carl.text f'.passwd.content = true := by
  obtain ⟨f', t', hrun, hholds, -, -, husers, hmembers, -⟩ := usersLoop_enrols smallSystem
    smallGroups "/jail".toList "/bin/sh".toList ["carl".toList, "dave".toList] smallFiles _
    smallSystem_tables smallFiles_ready
  have hcarl : carl.text ∈ ["carl".toList, "dave".toList] ∧
      (smallSystem.getpwnam carl.text).isSome := by decide
  have hstaff : ListedIn smallGroups carl.text 50 :=
    ⟨⟨staffGroup, [carl.text]⟩, by simp [smallGroups], rfl, List.mem_singleton_self _⟩
  exact ⟨f', t', hrun, hholds, (hmembers 50 carl).mpr (Or.inr ⟨hcarl, hstaff⟩),
    (husers carl).mpr (Or.inr hcarl)⟩

theorem usersLoop_again_small :
    ∃ f', usersLoop smallSystem smallGroups "/jail".toList "/bin/sh".toList ["carl".toList]
        smallFiles = .ok (none, f') ∧
      usersLoop smallSystem smallGroups "/jail".toList "/bin/sh".toList
        ["carl".toList, "carl".toList] f' = .ok (none, f') := by
  obtain ⟨f', hrun, hagain⟩ := usersLoop_again smallSystem smallGroups "/jail".toList
    "/bin/sh".toList ["carl".toList] smallFiles _ smallSystem_tables smallFiles_ready
  exact ⟨f', hrun, hagain _ (by simp)⟩

end Jailkit.Tools
