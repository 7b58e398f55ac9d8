import Jailkit.Tools.AccountEdits

/-!
The group file as a table: what its lines say, what the two edits of jk_jailuser do to a table,
and that the file holds just that table afterwards.
-/
namespace Jailkit.Tools

open JkLib

theorem Name.eq_of_text {a b : Name} (h : a.text = b.text) : a = b := by
  cases a
  cases b
  cases h
  rfl

instance : DecidableEq Name := fun _ _ =>
  decidable_of_iff _ ⟨Name.eq_of_text, congrArg Name.text⟩

structure GroupRecord where
  name : Name
  gid : Nat
  members : List Name
  deriving DecidableEq

abbrev GroupTable := List GroupRecord

def memberField (members : List Name) : Text := join ',' (members.map Name.text)

def GroupRecord.line (r : GroupRecord) : Text :=
  join ':' [r.name.text, ['x'], pyStr r.gid, memberField r.members]

def GroupTable.text (t : GroupTable) : Text := unlines (t.map GroupRecord.line) []

/-- The file has the lines of the table and nothing else. -/
def HoldsTable (file : PyFile) (t : GroupTable) : Prop := file.content.getD [] = t.text

/-- The user comes behind the members of before. -/
def GroupRecord.enter (r : GroupRecord) (user : Name) : GroupRecord :=
  if user ∈ r.members then r else { r with members := r.members ++ [user] }

/-- A group is entered under a name that is not there. -/
def GroupTable.withGroup (t : GroupTable) (gr : Group) (members : List Name) : GroupTable :=
  if ∃ r ∈ t, r.name = gr.gr_name then t else t ++ [⟨gr.gr_name, gr.gr_gid, members⟩]

/-- The user is entered in the first group with the number. -/
def GroupTable.enterFirst (group_id : Nat) (user : Name) : GroupTable → Option GroupTable
  | [] => none
  | r :: t =>
      if r.gid = group_id then some (r.enter user :: t)
      else (enterFirst group_id user t).map (r :: ·)

def GroupTable.Has (t : GroupTable) (gid : Nat) : Prop := ∃ r ∈ t, r.gid = gid

def GroupTable.Member (t : GroupTable) (gid : Nat) (user : Name) : Prop :=
  ∃ r ∈ t, r.gid = gid ∧ user ∈ r.members

def GroupTable.InFirst (t : GroupTable) (gid : Nat) (user : Name) : Prop :=
  ∃ r, (t.find? fun r => r.gid = gid) = some r ∧ user ∈ r.members

/-- No member is gone, and none has moved. -/
def GroupRecord.Grown (r r' : GroupRecord) : Prop :=
  r'.name = r.name ∧ r'.gid = r.gid ∧ r.members <+: r'.members

/-- No group is gone, and none has moved. -/
inductive GroupTable.Grown : GroupTable → GroupTable → Prop where
  | nil (more : GroupTable) : Grown [] more
  | cons {r r' t t'} : GroupRecord.Grown r r' → Grown t t' → Grown (r :: t) (r' :: t')

section

variable {file : PyFile} {t : GroupTable} {r : GroupRecord} {user name : Name} {gr : Group}
  {group_id : Nat} {db : Databases}

theorem isDigit_of_mem_pyStr {n : Nat} {c : Char} (h : c ∈ pyStr n) : c.isDigit = true :=
  Nat.isDigit_of_mem_toDigits (by decide) (by decide) h

theorem not_mem_pyStr {c : Char} (hc : c.isDigit = false) (n : Nat) : c ∉ pyStr n := by
  intro h
  rw [isDigit_of_mem_pyStr h] at hc
  cases hc

theorem pyInt_pyStr (n : Nat) : pyInt (pyStr n) = some (n : Int) := by
  have htrim : trim (pyStr n) = pyStr n :=
    trim_of_solid fun c hc => isspace_of_isDigit (isDigit_of_mem_pyStr hc)
  have hdigits : pyDigits (pyStr n) = some n := by
    have hall : (pyStr n).all Char.isDigit = true :=
      List.all_eq_true.mpr fun c hc => isDigit_of_mem_pyStr hc
    rw [pyDigits, if_pos ⟨Nat.toDigits_ne_nil, hall⟩, pyStr,
      Nat.ofDigitChars_toDigits (by decide) (by decide)]
  rw [pyInt, htrim]
  split
  next heq => exact absurd (heq ▸ List.mem_cons_self) (not_mem_pyStr (by decide) n)
  next heq => exact absurd (heq ▸ List.mem_cons_self) (not_mem_pyStr (by decide) n)
  next =>
    rw [hdigits]
    rfl

theorem not_mem_memberField {c : Char} (hcomma : c ≠ ',') {members : List Name}
    (h : ∀ m ∈ members, c ∉ m.text) : c ∉ memberField members := by
  intro hmem
  obtain ⟨f, hf, hcf⟩ := (mem_join hmem).resolve_left hcomma
  obtain ⟨m, hm, heq⟩ := List.mem_map.mp hf
  rw [← heq] at hcf
  exact h m hm hcf

theorem line_splitOn (r : GroupRecord) :
    r.line.splitOn ':' = [r.name.text, ['x'], pyStr r.gid, memberField r.members] := by
  have hx : ':' ∉ (['x'] : Text) := by decide
  apply splitOn_join (List.cons_ne_nil _ _)
  simp only [List.forall_mem_cons, List.not_mem_nil, false_imp_iff, implies_true, and_true]
  exact ⟨r.name.oneField, hx, not_mem_pyStr (by decide) _,
    not_mem_memberField (by decide) fun m _ => m.oneField⟩

theorem line_oneLine (r : GroupRecord) : '\n' ∉ r.line := by
  have hx : '\n' ∉ (['x'] : Text) := by decide
  intro hmem
  obtain ⟨f, hf, hcf⟩ := (mem_join hmem).resolve_left (by decide)
  have hfields : ∀ f ∈ [r.name.text, ['x'], pyStr r.gid, memberField r.members], '\n' ∉ f := by
    simp only [List.forall_mem_cons, List.not_mem_nil, false_imp_iff, implies_true, and_true]
    exact ⟨r.name.oneLine, hx, not_mem_pyStr (by decide) _,
      not_mem_memberField (by decide) fun m _ => m.oneLine⟩
  exact hfields f hf hcf

theorem memberField_splitOn (m : Name) (ms : List Name) :
    (memberField (m :: ms)).splitOn ',' = (m :: ms).map Name.text := by
  have hne : (m :: ms).map Name.text ≠ [] := List.cons_ne_nil _ _
  refine splitOn_join hne fun f hf => ?_
  obtain ⟨n, -, heq⟩ := List.mem_map.mp hf
  rw [← heq]
  exact n.oneMember

theorem membersOf_memberField (members : List Name) :
    membersOf (memberField members) = members.map Name.text := by
  cases members with
  | nil => rfl
  | cons m ms =>
      have hsplit := memberField_splitOn m ms
      rw [membersOf, if_neg, hsplit]
      intro hnil
      rw [hnil, List.splitOn_nil, List.map_cons] at hsplit
      exact m.nonempty (List.cons.inj hsplit).1.symm

theorem mem_memberField (members : List Name) (user : Name) :
    user.text ∈ (memberField members).splitOn ',' ↔ user ∈ members := by
  rw [← mem_membersOf, membersOf_memberField, List.mem_map]
  constructor
  · rintro ⟨n, hn, heq⟩
    rwa [← Name.eq_of_text heq]
  · intro h
    exact ⟨user, h, rfl⟩

theorem listed_memberField (members : List Name) (user : Name) :
    listed (memberField members) user.text = memberField (members ++ [user]) := by
  rw [← join_membersOf, membersOf_memberField, memberField, List.map_append, List.map_singleton]

def GroupRecord.rawLine (r : GroupRecord) : Text := r.line ++ ['\n']

theorem text_append (s t : GroupTable) : (s ++ t).text = s.text ++ t.text := by
  simp [GroupTable.text, unlines]

theorem text_singleton (r : GroupRecord) : GroupTable.text [r] = r.rawLine := by
  simp [GroupTable.text, unlines, GroupRecord.rawLine]

theorem text_cons (r : GroupRecord) (t : GroupTable) :
    GroupTable.text (r :: t) = r.rawLine ++ t.text := by
  rw [← List.singleton_append, text_append, text_singleton]

theorem readlines_table (t : GroupTable) : readlines t.text = t.map GroupRecord.rawLine := by
  have hlines : ∀ l ∈ t.map GroupRecord.line, '\n' ∉ l := by
    intro l hl
    obtain ⟨r, -, heq⟩ := List.mem_map.mp hl
    rw [← heq]
    exact line_oneLine r
  rw [GroupTable.text, readlines_unlines hlines List.not_mem_nil, lastLine, if_pos rfl,
    List.append_nil, List.map_map]
  rfl

theorem rawLine_splitOn (r : GroupRecord) :
    r.rawLine.splitOn ':' =
      [r.name.text, ['x'], pyStr r.gid, memberField r.members ++ ['\n']] :=
  (splitOn_newline r.line _).mpr
    ⟨[r.name.text, ['x'], pyStr r.gid], memberField r.members, line_splitOn r, rfl⟩

theorem rawLine_passed (h : r.gid ≠ group_id) : Passed group_id r.rawLine := by
  intro name passwd gid members hsplit
  rw [rawLine_splitOn] at hsplit
  cases hsplit
  exact ⟨r.gid, pyInt_pyStr r.gid, fun heq => h (by exact_mod_cast heq)⟩

/-- The line of the group, rewritten in place. -/
theorem joined_table (s t : GroupTable) (r : GroupRecord) (user : Name) :
    joined user.text (s ++ r :: t).text s.text.length r.rawLine r.name.text (pyStr r.gid)
        (memberField r.members ++ ['\n']) =
      (s ++ r.enter user :: t).text := by
  rw [joined_eq, List.dropLast_concat, GroupRecord.enter]
  by_cases hold : user ∈ r.members
  · rw [if_pos ((mem_memberField r.members user).mpr hold), if_pos hold]
  · rw [if_neg fun h => hold ((mem_memberField r.members user).mp h), if_neg hold,
      listed_memberField, text_append, text_cons, ← List.append_assoc, ← List.length_append,
      List.drop_left, List.append_assoc]
    obtain ⟨residue, hover, hres⟩ := overwrite_line s.text r.rawLine t.text
      (join ':' [r.name.text, ['x'], pyStr r.gid, memberField (r.members ++ [user])])
    have hlen : r.rawLine.length ≤
        (join ':' [r.name.text, ['x'], pyStr r.gid, memberField (r.members ++ [user])]).length +
          1 := by
      have hlisted := listed_length (memberField r.members) user
      rw [listed_memberField] at hlisted
      rw [GroupRecord.rawLine, List.length_append, GroupRecord.line, entry_length, entry_length]
      simp only [List.length_singleton]
      omega
    rw [hover, hres hlen, List.append_nil, text_append, text_cons]
    simp [GroupRecord.rawLine, GroupRecord.line]

theorem memberLoop_table (s t : GroupTable) (user : Name) :
    memberLoop group_id user.text (s ++ t).text s.text.length (t.map GroupRecord.rawLine) =
      .ok (match t.enterFirst group_id user with
        | none => (0, (s ++ t).text)
        | some t' => (1, (s ++ t').text)) := by
  induction t generalizing s with
  | nil => rfl
  | cons r t ih =>
      rw [List.map_cons, GroupTable.enterFirst]
      by_cases hgid : r.gid = group_id
      · have hint : pyInt (pyStr r.gid) = some (group_id : Int) := by rw [pyInt_pyStr, hgid]
        rw [memberLoop_found _ (rawLine_splitOn r) hint, joined_table, if_pos hgid]
      · have hpassed : ∀ l ∈ [r.rawLine], Passed group_id l :=
          List.forall_mem_singleton.mpr (rawLine_passed hgid)
        have hrest := ih (s ++ [r])
        have hlen : (s ++ [r]).text.length = s.text.length + r.rawLine.length := by
          rw [text_append, text_singleton, List.length_append]
        rw [List.append_assoc, List.singleton_append, hlen] at hrest
        have hstep := @memberLoop_passed group_id user.text (s ++ r :: t).text _
          (t.map GroupRecord.rawLine) hpassed s.text.length
        rw [List.singleton_append, List.flatten_singleton, hrest] at hstep
        rw [hstep, if_neg hgid]
        cases GroupTable.enterFirst group_id user t with
        | none => rfl
        | some t' => simp

theorem rawLine_names (r : GroupRecord) (name : Name) : Names name.text r.rawLine ↔ r.name = name := by
  rw [Names, rawLine_splitOn, List.head?_cons, Option.some.injEq]
  exact ⟨Name.eq_of_text, congrArg Name.text⟩

theorem testGroupExist_table (h : HoldsTable file t) (name : Name) :
    testGroupExist name.text file.content = true ↔ ∃ r ∈ t, r.name = name := by
  rw [testGroupExist, testNumitemExist_getD, h, testNumitemExist_iff, readlines_table]
  simp only [List.mem_map, exists_exists_and_eq_and, rawLine_names]

theorem groupEntry_line (gr : Group) (member : Option Name) :
    groupEntry gr (member.map Name.text) =
      (GroupRecord.mk gr.gr_name gr.gr_gid member.toList).line := by
  cases member <;>
    simp [groupEntry, GroupRecord.line, memberField, join, List.intercalate_cons_cons]

theorem withEntry_table (h : HoldsTable file t) (gr : Group) (member : Option Name) :
    withEntry file.content gr.gr_name.text (groupEntry gr (member.map Name.text)) =
      (t.withGroup gr member.toList).text := by
  have hseen := testGroupExist_table h gr.gr_name
  rw [testGroupExist] at hseen
  rw [withEntry, GroupTable.withGroup]
  by_cases hin : ∃ r ∈ t, r.name = gr.gr_name
  · rw [if_pos (hseen.mpr hin), if_pos hin, h]
  · rw [if_neg fun htest => hin (hseen.mp htest), if_neg hin, text_append, text_singleton, h,
      groupEntry_line]
    rfl

theorem addgrouptojail_table (hgr : db.getgrgid group_id = some gr) (hopen : file.denied = false)
    (h : HoldsTable file t) (member : Option Name) :
    ∃ file', addgrouptojail db file group_id (member.map Name.text) = .ok (1, file') ∧
      file'.denied = false ∧ HoldsTable file' (t.withGroup gr member.toList) := by
  have htext := withEntry_table h gr member
  rw [withEntry] at htext
  simp only [addgrouptojail, hgr]
  by_cases hseen : testGroupExist gr.gr_name.text file.content = true
  · rw [if_pos hseen]
    rw [if_pos (by exact hseen)] at htext
    exact ⟨file, rfl, hopen, htext⟩
  · rw [if_neg hseen, appendEntry, PyFile.append, hopen]
    rw [if_neg (by exact hseen)] at htext
    exact ⟨_, rfl, rfl, htext⟩

theorem addusertogroupinjail_table (hgr : db.getgrgid group_id = some gr)
    (hopen : file.denied = false) (h : HoldsTable file t) (user : Name) :
    addusertogroupinjail db file group_id user.text =
      .ok (match (t.withGroup gr [user]).enterFirst group_id user with
        | none => (0, { file with content := some (t.withGroup gr [user]).text })
        | some t' => (1, { file with content := some t'.text })) := by
  have htext := withEntry_table h gr (some user)
  rw [Option.map_some, Option.toList_some] at htext
  have hloop := @memberLoop_table group_id [] (t.withGroup gr [user]) user
  rw [List.nil_append] at hloop
  rw [addusertogroupinjail_eq hgr hopen]
  simp only [htext, readlines_table]
  rw [show (0 : Nat) = (GroupTable.text []).length from rfl, hloop]
  cases (t.withGroup gr [user]).enterFirst group_id user with
  | none => rfl
  | some t' => rfl

end

section

variable {t t' t'' : GroupTable} {r r' r'' : GroupRecord} {user : Name} {gr : Group}
  {group_id : Nat}

theorem recordGrown_refl (r : GroupRecord) : r.Grown r := ⟨rfl, rfl, List.prefix_rfl⟩

theorem recordGrown_trans (h : r.Grown r') (h' : r'.Grown r'') : r.Grown r'' :=
  ⟨h'.1.trans h.1, h'.2.1.trans h.2.1, h.2.2.trans h'.2.2⟩

theorem grown_append (t more : GroupTable) : t.Grown (t ++ more) := by
  induction t with
  | nil => exact .nil more
  | cons r t ih => exact .cons (recordGrown_refl r) ih

theorem grown_refl (t : GroupTable) : t.Grown t := by
  have h := grown_append t []
  rwa [List.append_nil] at h

theorem grown_trans (h : t.Grown t') (h' : t'.Grown t'') : t.Grown t'' := by
  induction h generalizing t'' with
  | nil => exact .nil t''
  | cons hr _ ih =>
      cases h' with
      | cons hr' ht' => exact .cons (recordGrown_trans hr hr') (ih ht')

theorem mem_enter (r : GroupRecord) (user u : Name) :
    u ∈ (r.enter user).members ↔ u ∈ r.members ∨ u = user := by
  rw [GroupRecord.enter]
  split
  next h =>
    refine ⟨Or.inl, fun hu => hu.elim id fun heq => ?_⟩
    rw [heq]
    exact h
  next => rw [List.mem_append, List.mem_singleton]

theorem enter_grown (r : GroupRecord) (user : Name) : r.Grown (r.enter user) := by
  rw [GroupRecord.enter]
  split
  next => exact recordGrown_refl r
  next => exact ⟨rfl, rfl, List.prefix_append _ _⟩

@[simp] theorem enter_gid (r : GroupRecord) (user : Name) : (r.enter user).gid = r.gid :=
  (enter_grown r user).2.1

theorem has_cons (gid : Nat) : GroupTable.Has (r :: t) gid ↔ r.gid = gid ∨ t.Has gid := by
  simp [GroupTable.Has]

theorem member_cons (gid : Nat) (u : Name) :
    GroupTable.Member (r :: t) gid u ↔ r.gid = gid ∧ u ∈ r.members ∨ t.Member gid u := by
  simp [GroupTable.Member]

/-- Where the group is in the table, the user is entered and nothing else changes. -/
theorem enterFirst_spec (h : t.Has group_id) (user : Name) :
    ∃ t', t.enterFirst group_id user = some t' ∧ t.Grown t' ∧
      (t'.map fun r => (r.name, r.gid)) = t.map (fun r => (r.name, r.gid)) ∧
      ∀ gid u, t'.Member gid u ↔ t.Member gid u ∨ gid = group_id ∧ u = user := by
  induction t with
  | nil => exact absurd h (by simp [GroupTable.Has])
  | cons r t ih =>
      rw [GroupTable.enterFirst]
      by_cases hgid : r.gid = group_id
      · have hgrown := enter_grown r user
        refine ⟨_, if_pos hgid, .cons hgrown (grown_refl t), ?_, fun gid u => ?_⟩
        · rw [List.map_cons, List.map_cons, hgrown.1, hgrown.2.1]
        · rw [member_cons, member_cons, mem_enter, enter_gid, hgid]
          constructor
          · rintro (⟨heq, hu | hu⟩ | ht)
            · exact Or.inl (Or.inl ⟨heq, hu⟩)
            · exact Or.inr ⟨heq.symm, hu⟩
            · exact Or.inl (Or.inr ht)
          · rintro ((⟨heq, hu⟩ | ht) | ⟨heq, hu⟩)
            · exact Or.inl ⟨heq, Or.inl hu⟩
            · exact Or.inr ht
            · exact Or.inl ⟨heq.symm, Or.inr hu⟩
      · obtain ⟨t', hsome, hgrown, hkeys, hmember⟩ := ih (((has_cons group_id).mp h).resolve_left hgid)
        refine ⟨r :: t', ?_, .cons (recordGrown_refl r) hgrown, ?_, fun gid u => ?_⟩
        · rw [if_neg hgid, hsome]
          rfl
        · rw [List.map_cons, List.map_cons, hkeys]
        · rw [member_cons, member_cons, hmember, or_assoc]

theorem withGroup_grown (t : GroupTable) (gr : Group) (ms : List Name) :
    t.Grown (t.withGroup gr ms) := by
  rw [GroupTable.withGroup]
  split
  · exact grown_refl t
  · exact grown_append t _

theorem inFirst_cons (gid : Nat) (u : Name) :
    GroupTable.InFirst (r :: t) gid u ↔
      if r.gid = gid then u ∈ r.members else t.InFirst gid u := by
  rw [GroupTable.InFirst]
  split
  next hgid => simp [hgid]
  next hgid => simp [hgid, GroupTable.InFirst]

theorem inFirst_grown (h : t.Grown t') {gid : Nat} (hin : t.InFirst gid user) :
    t'.InFirst gid user := by
  induction h with
  | nil =>
      obtain ⟨r, hr, -⟩ := hin
      cases hr
  | cons hr _ ih =>
      rw [inFirst_cons] at hin ⊢
      rw [hr.2.1]
      split at hin
      next hgid =>
        rw [if_pos hgid]
        exact hr.2.2.subset hin
      next hgid =>
        rw [if_neg hgid]
        exact ih hin

theorem enterFirst_inFirst (h : t.enterFirst group_id user = some t') :
    t'.InFirst group_id user := by
  induction t generalizing t' with
  | nil => cases h
  | cons r t ih =>
      rw [GroupTable.enterFirst] at h
      split at h
      next hgid =>
        cases h
        rw [inFirst_cons, enter_gid, if_pos hgid, mem_enter]
        exact Or.inr rfl
      next hgid =>
        obtain ⟨t₁, ht₁, heq⟩ := Option.map_eq_some_iff.mp h
        rw [← heq, inFirst_cons, if_neg hgid]
        exact ih ht₁

/-- A user who is in already is not entered again. -/
theorem enterFirst_same (h : t.InFirst group_id user) : t.enterFirst group_id user = some t := by
  induction t with
  | nil =>
      obtain ⟨r, hr, -⟩ := h
      cases hr
  | cons r t ih =>
      rw [inFirst_cons] at h
      rw [GroupTable.enterFirst]
      split at h
      next hgid => rw [if_pos hgid, GroupRecord.enter, if_pos h]
      next hgid =>
        rw [if_neg hgid, ih h]
        rfl

theorem has_of_inFirst {gid : Nat} (h : t.InFirst gid user) : t.Has gid := by
  obtain ⟨r, hr, -⟩ := h
  exact ⟨r, List.mem_of_find?_eq_some hr, by simpa using List.find?_some hr⟩

end

end Jailkit.Tools
