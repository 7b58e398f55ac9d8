import Jailkit.Tools.MemberLines

/-!
When the edits of the jail's passwd and group files keep all the lines that were there.
-/
namespace Jailkit.Tools

open JkLib

section

variable {t entry : Text}

theorem Name.splitOn (n : Name) : n.text.splitOn ':' = [n.text] :=
  List.splitOn_eq_singleton n.oneField

theorem names_newline (n : Name) (l : Text) :
    Names n.text l ↔ Names n.text (l ++ ['\n']) ∨ l = n.text := by
  obtain ⟨fs, last, hsplit, hsnoc⟩ := splitOn_snoc ':' l
  rw [Names, Names, hsnoc ['\n'] (by decide), hsplit]
  cases fs with
  | nil =>
      have hl : l = last := by
        have hjoin : join ':' (l.splitOn ':') = l := List.intercalate_splitOn ':'
        rw [hsplit] at hjoin
        simpa [join, List.intercalate_singleton] using hjoin.symm
      have hno : ¬ last ++ ['\n'] = n.text := by
        intro heq
        exact n.oneLine (heq ▸ by simp)
      simp [hl, hno]
  | cons f fs =>
      have hother : l = n.text → f = n.text := by
        intro heq
        rw [heq, n.splitOn] at hsplit
        exact (List.cons.inj hsplit).1.symm
      simpa using hother

theorem testNumitemExist_iff (n : Text) :
    testNumitemExist n 0 (some t) = true ↔ ∃ line ∈ readlines t, Names n line := by
  simp only [testNumitemExist, List.any_eq_true, beq_iff_eq, Names, List.head?_eq_getElem?]

/-- A name that the tools do not see stands alone in a line. -/
theorem names_iff (n : Name) :
    (∃ l ∈ linesOf t, Names n.text l) ↔
      testNumitemExist n.text 0 (some t) = true ∨ n.text ∈ linesOf t := by
  obtain ⟨ls, rest, ht, hls, hrest⟩ := exists_unlines t
  have hself : Names n.text n.text := by
    rw [Names, n.splitOn]
    rfl
  rw [testNumitemExist_iff, ht, linesOf_unlines hls hrest, readlines_unlines hls hrest]
  constructor
  · intro h
    obtain ⟨l, hl, hnames⟩ := h
    cases List.mem_append.mp hl with
    | inr hlast => exact Or.inl ⟨l, List.mem_append_right _ hlast, hnames⟩
    | inl hls =>
        cases (names_newline n l).mp hnames with
        | inl hraw =>
            exact Or.inl ⟨_, List.mem_append_left _ (List.mem_map.mpr ⟨l, hls, rfl⟩), hraw⟩
        | inr heq => exact Or.inr (heq ▸ hl)
  · intro h
    cases h with
    | inr hmem => exact ⟨n.text, hmem, hself⟩
    | inl h =>
        obtain ⟨line, hline, hnames⟩ := h
        cases List.mem_append.mp hline with
        | inr hlast => exact ⟨line, List.mem_append_right _ hlast, hnames⟩
        | inl hls =>
            obtain ⟨l, hl, heq⟩ := List.mem_map.mp hls
            rw [← heq] at hnames
            exact ⟨l, List.mem_append_left _ hl, (names_newline n l).mpr (Or.inl hnames)⟩

/-- An entry can be appended: the name is there, or the last line has an end and no line is
the name alone. -/
def Appendable (content : Option Text) (name entry : Text) : Prop :=
  testNumitemExist name 0 content = true ∨
    EndsLine (content.getD []) ∧ '\n' ∉ entry ∧ name ∉ linesOf (content.getD [])

theorem testNumitemExist_getD (name : Text) (content : Option Text) :
    testNumitemExist name 0 content = testNumitemExist name 0 (some (content.getD [])) := by
  cases content with
  | none => rfl
  | some t => rfl

/-- The text with the entry, written as the tools write it. -/
def withEntry (content : Option Text) (name entry : Text) : Text :=
  if testNumitemExist name 0 content then content.getD []
  else content.getD [] ++ (entry ++ ['\n'])

theorem adds_iff (n : Name) (content : Option Text) (hentry : ':' ∈ entry) :
    AddsLine n.text entry (linesOf (content.getD [])) (linesOf (withEntry content n.text entry)) ↔
      Appendable content n.text entry := by
  have hget := testNumitemExist_getD n.text content
  rw [AddsLine, names_iff, withEntry, Appendable, hget]
  generalize content.getD [] = t
  by_cases hseen : testNumitemExist n.text 0 (some t) = true
  · simp [hseen]
  · have hnew : linesOf (t ++ (entry ++ ['\n'])) ≠ linesOf t := by
      intro heq
      have hbytes := congrArg List.flatten heq
      rw [flatten_linesOf, flatten_linesOf, List.filter_append] at hbytes
      have hmem : ':' ∈ (entry ++ ['\n']).filter (· ≠ '\n') := by simp [hentry]
      rw [List.append_right_eq_self.mp hbytes] at hmem
      cases hmem
    simp only [hseen, Bool.false_eq_true, false_or, if_false, hnew, linesOf_append_iff, and_false]
    constructor
    · intro h
      exact ⟨h.2.1, h.2.2, h.1⟩
    · intro h
      exact ⟨h.2.2, h.1, h.2.1⟩

end

section

variable {group_id : Nat} {user : Name} {u line name passwd gid members : Text}
  {pre post : List Text}

def colons (ls : List Text) : List Nat := ls.map (List.count ':')

theorem count_entry {name passwd gid field : Text} (hname : ':' ∉ name) (hpasswd : ':' ∉ passwd)
    (hgid : ':' ∉ gid) (hfield : ':' ∉ field) :
    (join ':' [name, passwd, gid, field]).count ':' = 3 := by
  simp only [join, List.intercalate_cons_cons, List.intercalate_singleton, List.count_append,
    List.count_eq_zero_of_not_mem hname, List.count_eq_zero_of_not_mem hpasswd,
    List.count_eq_zero_of_not_mem hgid, List.count_eq_zero_of_not_mem hfield,
    List.count_singleton_self]

theorem count_four (user : Name) {l field : Text}
    (hfields : l.splitOn ':' = [name, passwd, gid, field]) :
    l.count ':' = 3 ∧
      (join ':' [name, passwd, gid, listed field user.text]).count ':' = 3 ∧
      (join ':' [name, ['x'], gid, listed field.dropLast user.text]).count ':' = 3 := by
  have hnone : ∀ f ∈ [name, passwd, gid, field], ':' ∉ f :=
    fun f hf => (mem_splitOn (hfields ▸ hf)).1
  have hname := hnone name (by simp)
  have hpasswd := hnone passwd (by simp)
  have hgid := hnone gid (by simp)
  have hfield := hnone field (by simp)
  have hdrop : ':' ∉ field.dropLast := fun h => hfield (List.dropLast_subset field h)
  refine ⟨?_, ?_, ?_⟩
  · rw [← join_splitOn ':' l, hfields]
    exact count_entry hname hpasswd hgid hfield
  · exact count_entry hname hpasswd hgid (colon_not_mem_listed user hfield)
  · exact count_entry hname (by decide) hgid (colon_not_mem_listed user hdrop)

/-- A new member brings no colon. -/
theorem joins_colons {l l' : Text} (h : Joins group_id user.text l l') :
    l'.count ':' = l.count ':' := by
  obtain ⟨name, passwd, gid, field, hfields, hgid, hl'⟩ := h
  obtain ⟨hl, hlisted, -⟩ := count_four user hfields
  rw [join_membersOf] at hl'
  rw [hl', hl]
  split
  · exact hl
  · exact hlisted

theorem joinsOne_colons {old new : List Text} (h : JoinsOne group_id user.text old new) :
    colons new = colons old := by
  obtain ⟨pre, l, l', post, hold, hnew, hjoins⟩ := h
  rw [hold, hnew, colons, colons, List.map_append, List.map_append, List.map_cons, List.map_cons,
    joins_colons hjoins]

theorem colons_joined (hread : readlines u = pre ++ line :: post)
    (hsplit : line.splitOn ':' = [name, passwd, gid, members]) (hends : EndsLine u) :
    ∃ more, colons (linesOf (joined user.text u pre.flatten.length line name gid members)) =
      colons (linesOf u) ++ more := by
  by_cases hold : user.text ∈ members.dropLast.splitOn ','
  · rw [joined_eq, if_pos hold]
    exact ⟨[], (List.append_nil _).symm⟩
  · obtain ⟨residue, hnew, -⟩ := linesOf_joined hread hsplit hold
    have hpost : EndsLine post.flatten := by
      obtain ⟨htext, -, -, -⟩ := readlines_parts hread
      rw [htext, ← List.append_assoc] at hends
      exact endsLine_suffix hends
    obtain ⟨-, -, hedit⟩ := count_four user hsplit
    have hline : (chomp line).count ':' = 3 := by
      obtain ⟨l, field, hfields, -, hchomp, -⟩ := found_line hread hsplit
      rw [hchomp]
      exact (count_four user hfields).1
    refine ⟨colons (linesOf residue), ?_⟩
    rw [hnew, linesOf_parts hread, linesOf_endsLine hpost, linesOf_behind hread]
    simp only [colons, List.map_append, List.map_cons, hedit, hline, List.append_assoc,
      List.cons_append]

/-- An edit of the text with the entry shows whether the entry is a line of its own. -/
theorem appendable_of_joinsOne {t entry : Text} {mid new : List Text} {n : Name}
    (hentry : '\n' ∉ entry) (hcolon : ':' ∈ entry)
    (hadds : AddsLine n.text entry (linesOf t) mid) (hjoins : JoinsOne group_id user.text mid new)
    (hnew : ∃ more, colons new = colons (linesOf (t ++ (entry ++ ['\n']))) ++ more) :
    EndsLine t ∧ n.text ∉ linesOf t := by
  obtain ⟨more, hmore⟩ := hnew
  rw [joinsOne_colons hjoins] at hmore
  obtain ⟨ls, rest, ht, hls, hrest⟩ := exists_unlines t
  have hends : EndsLine t := by
    by_contra hnot
    rw [ht, endsLine_unlines hrest] at hnot
    rw [ht, linesOf_glued hls hrest hentry] at hmore
    have hlines : linesOf t = ls ++ [rest] := by
      rw [ht, linesOf_unlines hls hrest, lastLine, if_neg hnot]
    have hmid : ∃ tail, mid = ls ++ rest :: tail := by
      cases hadds with
      | inl hold => exact ⟨[], by rw [hold.2, hlines]⟩
      | inr hadd =>
          refine ⟨[entry], ?_⟩
          rw [hadd.2, hlines, List.append_assoc]
          rfl
    obtain ⟨tail, hmid⟩ := hmid
    rw [hmid] at hmore
    simp only [colons, List.map_append, List.map_cons, List.append_assoc, List.map_nil,
      List.cons_append] at hmore
    have hcount := (List.cons.inj (List.append_cancel_left hmore)).1
    rw [List.count_append] at hcount
    have hpos := List.count_pos_iff.mpr hcolon
    omega
  refine ⟨hends, ?_⟩
  intro hmem
  cases hadds with
  | inl hold =>
      rw [hold.2, linesOf_endsLine hends, linesOf_line hentry] at hmore
      have hlen := congrArg List.length hmore
      simp only [colons, List.length_map, List.length_append, List.length_cons] at hlen
      omega
  | inr hadd => exact hadd.1 ((names_iff n).mpr (Or.inr hmem))

end

/-- The call raises nothing on a line, and the file is right where it returns 1. -/
def Edits (r : Edit) (right : PyFile → Prop) : Prop :=
  r ≠ .error .valueError ∧ ∀ file, r = .ok (1, file) → right file

/-- What the call found is there already, or what it writes is a line of its own. -/
theorem edits_append_iff (n : Name) (file : PyFile) {entry : Text} (hcolon : ':' ∈ entry) :
    Edits (if testNumitemExist n.text 0 file.content then .ok (1, file)
        else .ok (appendEntry file entry))
      (fun new => AddsLine n.text entry file.lines new.lines) ↔
      file.denied = true ∨ Appendable file.content n.text entry := by
  have hadds := adds_iff n file.content hcolon
  by_cases hseen : testNumitemExist n.text 0 file.content = true
  · rw [withEntry, if_pos hseen] at hadds
    rw [if_pos hseen]
    refine ⟨fun _ => Or.inr (Or.inl hseen), fun _ => ⟨nofun, fun new hnew => ?_⟩⟩
    cases hnew
    exact hadds.mpr (Or.inl hseen)
  · rw [withEntry, if_neg hseen] at hadds
    rw [if_neg hseen, appendEntry, PyFile.append]
    cases hdenied : file.denied with
    | true => exact ⟨fun _ => Or.inl rfl, fun _ => ⟨nofun, nofun⟩⟩
    | false =>
        constructor
        · intro h
          exact Or.inr (hadds.mp (h.2 _ rfl))
        · intro h
          refine ⟨nofun, fun new hnew => ?_⟩
          cases hnew
          exact hadds.mpr (h.resolve_left nofun)

/-- The first line that the loop does not pass is the group's, and it can be edited. -/
def GroupReady (gr : Group) (group_id : Nat) (user : Name) (content : Option Text) : Prop :=
  ∀ pre line post,
    readlines (withEntry content gr.gr_name.text (groupEntry gr (some user.text))) =
      pre ++ line :: post →
    (∀ l ∈ pre, Passed group_id l) → ¬ Passed group_id line →
      ∃ name passwd gid members, line.splitOn ':' = [name, passwd, gid, members] ∧
        pyInt gid = some (group_id : Int) ∧
        Appendable content gr.gr_name.text (groupEntry gr (some user.text)) ∧
        Rewritable user.text passwd members

section

variable {db : Databases} {file : PyFile} {group_id : Nat} {gr : Group} {user : Name}
  {line name passwd gid members : Text} {pre post : List Text}

theorem colon_mem_groupEntry (gr : Group) (user : Option Text) : ':' ∈ groupEntry gr user := by
  simp [groupEntry]

theorem newline_not_mem_groupEntry (gr : Group) (user : Name) :
    '\n' ∉ groupEntry gr (some user.text) := by
  have hdigits : '\n' ∉ pyStr gr.gr_gid := by
    intro hmem
    have hdigit := Nat.isDigit_of_mem_toDigits (by decide) (by decide) hmem
    exact absurd hdigit (by decide)
  simp [groupEntry, gr.gr_name.oneLine, user.oneLine, hdigits]

theorem addusertogroupinjail_denied (hdenied : file.denied = true) (user : Text) (new : PyFile) :
    addusertogroupinjail db file group_id user ≠ .ok (1, new) ∧
      addusertogroupinjail db file group_id user ≠ .error .valueError := by
  rw [addusertogroupinjail, addgrouptojail]
  cases hgr : db.getgrgid group_id with
  | none => exact ⟨nofun, nofun⟩
  | some gr =>
      by_cases hseen : testGroupExist gr.gr_name.text file.content = true
      · simp [hseen, PyFile.openUpdate, hdenied, bind, Except.bind, pure, Except.pure]
      · simp [hseen, appendEntry, PyFile.append, hdenied, bind, Except.bind, pure, Except.pure]

/-- The loop reads the file with the group's line. -/
theorem addusertogroupinjail_eq (hgr : db.getgrgid group_id = some gr)
    (hopen : file.denied = false) (user : Text) :
    addusertogroupinjail db file group_id user =
      (let t := withEntry file.content gr.gr_name.text (groupEntry gr (some user))
      memberLoop group_id user t 0 (readlines t) >>= fun r =>
        pure (r.1, { file with content := some r.2 })) := by
  obtain ⟨content, denied⟩ := file
  rw [addusertogroupinjail, addgrouptojail, hgr, withEntry]
  cases hopen
  by_cases hseen : testNumitemExist gr.gr_name.text 0 content = true
  · cases content with
    | none => cases hseen
    | some t =>
        simp only [testGroupExist, hseen, if_true]
        rfl
  · simp only [testGroupExist, hseen]
    rfl

theorem mid_iff (hread : readlines (withEntry file.content gr.gr_name.text
      (groupEntry gr (some user.text))) = pre ++ line :: post)
    (hpre : ∀ l ∈ pre, Passed group_id l)
    (hsplit : line.splitOn ':' = [name, passwd, gid, members])
    (hgid : pyInt gid = some (group_id : Int)) :
    (∃ mid, AddsLine gr.gr_name.text (groupEntry gr (some user.text)) file.lines mid ∧
        JoinsOne group_id user.text mid (linesOf (joined user.text (withEntry file.content
          gr.gr_name.text (groupEntry gr (some user.text))) pre.flatten.length line name gid
          members))) ↔
      Appendable file.content gr.gr_name.text (groupEntry gr (some user.text)) ∧
        Rewritable user.text passwd members := by
  have hcolon := colon_mem_groupEntry gr (some user.text)
  have hentry := newline_not_mem_groupEntry gr user
  have hadds := adds_iff gr.gr_name file.content hcolon
  constructor
  · intro h
    obtain ⟨mid, hmid, hone⟩ := h
    have happend : Appendable file.content gr.gr_name.text (groupEntry gr (some user.text)) := by
      by_cases hseen : testNumitemExist gr.gr_name.text 0 file.content = true
      · exact Or.inl hseen
      · rw [withEntry, if_neg hseen] at hread hone
        have hends : EndsLine (file.content.getD [] ++
            (groupEntry gr (some user.text) ++ ['\n'])) :=
          Or.inr ⟨_, (List.append_assoc _ _ _).symm⟩
        obtain ⟨ht, hname⟩ := appendable_of_joinsOne hentry hcolon hmid hone
          (colons_joined hread hsplit hends)
        exact Or.inr ⟨ht, hentry, hname⟩
    refine ⟨happend, (joinsOne_joined_iff hread hpre hsplit hgid).mp ?_⟩
    have hwith := hadds.mpr happend
    have hsame : mid = linesOf (withEntry file.content gr.gr_name.text
        (groupEntry gr (some user.text))) := by
      cases hmid with
      | inl hold =>
          cases hwith with
          | inl h => rw [hold.2, h.2]; rfl
          | inr h => exact absurd hold.1 h.1
      | inr hadd =>
          cases hwith with
          | inl h => exact absurd h.1 hadd.1
          | inr h => rw [hadd.2, h.2]; rfl
    rwa [hsame] at hone
  · intro h
    exact ⟨_, hadds.mpr h.1, (joinsOne_joined_iff hread hpre hsplit hgid).mpr h.2⟩

theorem memberLoop_first {u user : Text} (hread : readlines u = pre ++ line :: post)
    (hpre : ∀ l ∈ pre, Passed group_id l)
    (hsplit : line.splitOn ':' = [name, passwd, gid, members])
    (hgid : pyInt gid = none ∨ pyInt gid = some (group_id : Int)) :
    memberLoop group_id user u 0 (readlines u) =
      if pyInt gid = none then .error .valueError
      else .ok (1, joined user u pre.flatten.length line name gid members) := by
  rw [hread, memberLoop_passed hpre, Nat.zero_add]
  cases hgid with
  | inl hnone => rw [if_pos hnone, memberLoop_error _ hsplit hnone]
  | inr hsome => rw [if_neg (by rw [hsome]; nofun), memberLoop_found _ hsplit hsome]

theorem edits_joined_iff (hgr : db.getgrgid group_id = some gr) (hopen : file.denied = false) :
    Edits (addusertogroupinjail db file group_id user.text)
        (fun new => ∃ mid,
          AddsLine gr.gr_name.text (groupEntry gr (some user.text)) file.lines mid ∧
            JoinsOne group_id user.text mid new.lines) ↔
      GroupReady gr group_id user file.content := by
  rw [addusertogroupinjail_eq hgr hopen]
  constructor
  · intro h pre line post hread hpre hnot
    obtain ⟨name, passwd, gid, members, hsplit, hgid⟩ := not_passed_iff.mp hnot
    simp only [memberLoop_first hread hpre hsplit hgid] at h
    refine ⟨name, passwd, gid, members, hsplit, ?_⟩
    cases hgid with
    | inl hnone =>
        rw [if_pos hnone] at h
        exact absurd rfl h.1
    | inr hsome =>
        rw [if_neg (by rw [hsome]; nofun)] at h
        exact ⟨hsome, (mid_iff hread hpre hsplit hsome).mp (h.2 _ rfl)⟩
  · intro h
    cases passed_cases group_id
        (readlines (withEntry file.content gr.gr_name.text (groupEntry gr (some user.text)))) with
    | inl hall =>
        -- no line has the number, and the call returns 0
        simp only [memberLoop_none hall]
        exact ⟨nofun, nofun⟩
    | inr hfirst =>
        obtain ⟨pre, line, post, hread, hpre, hnot⟩ := hfirst
        obtain ⟨name, passwd, gid, members, hsplit, hsome, hready⟩ :=
          h pre line post hread hpre hnot
        simp only [memberLoop_first hread hpre hsplit (Or.inr hsome)]
        rw [if_neg (by rw [hsome]; nofun)]
        refine ⟨nofun, fun new hnew => ?_⟩
        cases hnew
        exact (mid_iff hread hpre hsplit hsome).mpr hready

end

def userLine (db : Databases) (jail : Text) (user : Name) (shell : Text) : Text :=
  ((db.getpwnam user.text).map (passwdEntry jail user.text shell)).getD []

/-- A user without a home is refused before anything is written. -/
theorem addusertojail_homeless {db : Databases} {pw : Account} {user : Text}
    (hpw : db.getpwnam user = some pw) (hdir : pw.pw_dir = []) (file : PyFile) (jail shell : Text) :
    addusertojail db file jail user shell =
      if testUserExist user file.content then .ok (1, file) else .error .indexError := by
  rw [addusertojail, hpw]
  simp only [dirinjail, hdir, if_true, bind, Except.bind]

theorem addusertojail_home {db : Databases} {pw : Account} {user : Text}
    (hpw : db.getpwnam user = some pw) (hdir : pw.pw_dir ≠ []) (file : PyFile) (jail shell : Text) :
    addusertojail db file jail user shell =
      if testUserExist user file.content then .ok (1, file)
      else .ok (appendEntry file (passwdEntry jail user shell pw)) := by
  rw [addusertojail, hpw]
  simp only [dirinjail, hdir, if_false, bind, Except.bind, pure, Except.pure]

/-- A user who is there already is not looked up. -/
theorem edits_seen {file : PyFile} {user : Name} (entry : Text) {e : AccountExn}
    (he : e ≠ .valueError) :
    Edits (if testUserExist user.text file.content then .ok (1, file) else .error e)
      (fun new => AddsLine user.text entry file.lines new.lines) := by
  split
  next hseen =>
    refine ⟨nofun, fun new hnew => ?_⟩
    cases hnew
    have hline := (@names_iff (file.content.getD []) user).mpr
      (Or.inl (testNumitemExist_getD user.text file.content ▸ hseen))
    exact Or.inl ⟨hline, rfl⟩
  next => exact ⟨fun h => he (Except.error.inj h), nofun⟩

theorem edits_user_iff (db : Databases) (file : PyFile) (jail : Text) (user : Name)
    (shell : Text) :
    Edits (addusertojail db file jail user.text shell)
        (fun new => AddsLine user.text (userLine db jail user shell) file.lines new.lines) ↔
      file.denied = true ∨ ∀ pw, db.getpwnam user.text = some pw → pw.pw_dir ≠ [] →
        Appendable file.content user.text (passwdEntry jail user.text shell pw) := by
  cases hpw : db.getpwnam user.text with
  | none =>
      refine ⟨fun _ => Or.inr nofun, fun _ => ?_⟩
      rw [addusertojail, hpw]
      exact edits_seen _ nofun
  | some pw =>
      by_cases hdir : pw.pw_dir = []
      · refine ⟨fun _ => Or.inr fun pw' hpw' hdir' => ?_, fun _ => ?_⟩
        · cases hpw'
          exact absurd hdir hdir'
        · rw [addusertojail_homeless hpw hdir]
          exact edits_seen _ nofun
      · have hcolon : ':' ∈ passwdEntry jail user.text shell pw := by simp [passwdEntry]
        rw [addusertojail_home hpw hdir, userLine, hpw, Option.map_some, Option.getD_some]
        simp only [Option.some.injEq, forall_eq', ne_eq, hdir, not_false_eq_true, forall_const]
        exact edits_append_iff user file hcolon

/-- When the three calls lose nothing of the file. -/
theorem account_edits_iff (db : Databases) (file : PyFile) (jail : Text) (user : Name)
    (shell : Text) (group_id : Nat) :
    (Edits (addusertojail db file jail user.text shell)
        (fun new => AddsLine user.text (userLine db jail user shell) file.lines new.lines) ↔
      file.denied = true ∨ ∀ pw, db.getpwnam user.text = some pw → pw.pw_dir ≠ [] →
        Appendable file.content user.text (passwdEntry jail user.text shell pw)) ∧
    (∀ member : Option Text, Edits (addgrouptojail db file group_id member)
        (fun new => ∃ gr, db.getgrgid group_id = some gr ∧
          AddsLine gr.gr_name.text (groupEntry gr member) file.lines new.lines) ↔
      file.denied = true ∨ ∀ gr, db.getgrgid group_id = some gr →
        Appendable file.content gr.gr_name.text (groupEntry gr member)) ∧
    (Edits (addusertogroupinjail db file group_id user.text)
        (fun new => ∃ gr mid, db.getgrgid group_id = some gr ∧
          AddsLine gr.gr_name.text (groupEntry gr (some user.text)) file.lines mid ∧
            JoinsOne group_id user.text mid new.lines) ↔
      file.denied = true ∨ ∀ gr, db.getgrgid group_id = some gr →
        GroupReady gr group_id user file.content) := by
  refine ⟨edits_user_iff db file jail user shell, fun member => ?_, ?_⟩
  · rw [addgrouptojail]
    cases hgr : db.getgrgid group_id with
    | none => exact ⟨fun _ => Or.inr nofun, fun _ => ⟨nofun, nofun⟩⟩
    | some gr =>
        simp only [Option.some.injEq, exists_eq_left', forall_eq']
        exact edits_append_iff gr.gr_name file (colon_mem_groupEntry gr member)
  · cases hgr : db.getgrgid group_id with
    | none =>
        refine ⟨fun _ => Or.inr nofun, fun _ => ?_⟩
        rw [addusertogroupinjail, addgrouptojail, hgr]
        exact ⟨nofun, nofun⟩
    | some gr =>
        cases hdenied : file.denied with
        | true =>
            refine ⟨fun _ => Or.inl rfl, fun _ => ⟨?_, fun new hnew => ?_⟩⟩
            · exact (addusertogroupinjail_denied hdenied user.text file).2
            · exact absurd hnew (addusertogroupinjail_denied hdenied user.text new).1
        | false =>
            simp only [Option.some.injEq, exists_eq_left', forall_eq', Bool.false_eq_true,
              false_or, exists_and_left]
            exact edits_joined_iff hgr hdenied

/-- A shorter password field leaves the end of the file behind as a line of its own. -/
theorem edit_leaves_line :
    let web : Group :=
      ⟨⟨"web".toList, by decide, by decide, by decide, by decide⟩, 33⟩
    let db : Databases := ⟨fun _ => none, fun _ => some web⟩
    ¬ Edits (addusertogroupinjail db ⟨some "web:secret:33:a\n".toList, false⟩ 33 ['b'])
      (fun new => ∃ gr mid, db.getgrgid 33 = some gr ∧
        AddsLine gr.gr_name.text (groupEntry gr (some ['b'])) ["web:secret:33:a".toList] mid ∧
          JoinsOne 33 ['b'] mid new.lines) := by
  intro web db h
  have hresult : addusertogroupinjail db ⟨some "web:secret:33:a\n".toList, false⟩ 33 ['b'] =
      .ok (1, ⟨some "web:x:33:a,b\n:a\n".toList, false⟩) := by
    decide +kernel
  obtain ⟨gr, mid, hgr, hadds, hjoins⟩ := h.2 _ hresult
  have hlines : (PyFile.mk (some "web:x:33:a,b\n:a\n".toList) false).lines =
      ["web:x:33:a,b".toList, ":a".toList] := by
    decide +kernel
  have hlen := joinsOne_length hjoins
  rw [hlines] at hlen
  cases hgr
  cases hadds with
  | inl hold =>
      rw [hold.2] at hlen
      cases hlen
  | inr hadd => exact hadd.1 ⟨_, List.mem_singleton_self _, by decide +kernel⟩

end Jailkit.Tools
