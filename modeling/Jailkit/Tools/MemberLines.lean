import Jailkit.Tools.Accounts

/-!
The line that `addusertogroupinjail` rewrites: what becomes of it and of the lines around it.
-/
namespace Jailkit.Tools

open JkLib

/-- The loop goes on behind the line. -/
def Passed (group_id : Nat) (line : Text) : Prop :=
  ∀ name passwd gid members, line.splitOn ':' = [name, passwd, gid, members] →
    ∃ n, pyInt gid = some n ∧ n ≠ group_id

/-- What the loop does at a line with the group number. -/
def joined (user content : Text) (pos : Nat) (line name gid members : Text) : Text :=
  let users := members.dropLast.splitOn ','
  if user ∈ users then content
  else
    let users := if users = [[]] then [user] else users ++ [user]
    overwrite content pos (name ++ ":x:".toList ++ gid ++ [':'] ++ join ',' users ++ ['\n'] ++
      content.drop (pos + line.length))

section

variable {group_id : Nat} {user content line name passwd gid members : Text}

theorem memberLoop_passed {pre lines : List Text} (h : ∀ l ∈ pre, Passed group_id l) (pos : Nat) :
    memberLoop group_id user content pos (pre ++ lines) =
      memberLoop group_id user content (pos + pre.flatten.length) lines := by
  induction pre generalizing pos with
  | nil => rfl
  | cons line pre ih =>
      have hrest : memberLoop group_id user content (pos + line.length) (pre ++ lines) =
          memberLoop group_id user content (pos + (line :: pre).flatten.length) lines := by
        rw [ih (fun l hl => h l (List.mem_cons_of_mem line hl)), List.flatten_cons,
          List.length_append, Nat.add_assoc]
      rw [List.cons_append, memberLoop]
      split
      next name passwd gid members hsplit =>
        obtain ⟨n, hn, hne⟩ := h line List.mem_cons_self name passwd gid members hsplit
        rw [hn]
        simp only [if_neg hne]
        exact hrest
      next => exact hrest

theorem memberLoop_none {lines : List Text} (h : ∀ l ∈ lines, Passed group_id l) (pos : Nat) :
    memberLoop group_id user content pos lines = .ok (0, content) := by
  rw [← List.append_nil lines, memberLoop_passed h, memberLoop]

theorem memberLoop_error {lines : List Text} (pos : Nat)
    (hsplit : line.splitOn ':' = [name, passwd, gid, members]) (hgid : pyInt gid = none) :
    memberLoop group_id user content pos (line :: lines) = .error .valueError := by
  rw [memberLoop, hsplit]
  simp only [hgid]

theorem memberLoop_found {lines : List Text} (pos : Nat)
    (hsplit : line.splitOn ':' = [name, passwd, gid, members])
    (hgid : pyInt gid = some (group_id : Int)) :
    memberLoop group_id user content pos (line :: lines) =
      .ok (1, joined user content pos line name gid members) := by
  rw [memberLoop, hsplit]
  simp only [hgid, if_true, joined, Nat.add_sub_cancel]
  split
  · rfl
  · rfl

theorem not_passed_iff : ¬ Passed group_id line ↔
    ∃ name passwd gid members, line.splitOn ':' = [name, passwd, gid, members] ∧
      (pyInt gid = none ∨ pyInt gid = some (group_id : Int)) := by
  simp only [Passed, not_forall]
  constructor
  · intro h
    obtain ⟨name, passwd, gid, members, hsplit, hgid⟩ := h
    refine ⟨name, passwd, gid, members, hsplit, ?_⟩
    cases hn : pyInt gid with
    | none => exact Or.inl rfl
    | some n =>
        refine Or.inr (congrArg some ?_)
        by_contra hne
        exact hgid ⟨n, hn, hne⟩
  · intro h
    obtain ⟨name, passwd, gid, members, hsplit, hgid⟩ := h
    refine ⟨name, passwd, gid, members, hsplit, fun hn => ?_⟩
    obtain ⟨n, hn, hne⟩ := hn
    rw [hn] at hgid
    cases hgid with
    | inl h => cases h
    | inr h => exact hne (Option.some.inj h)

/-- The loop ends at the first line that it does not pass. -/
theorem passed_cases (group_id : Nat) (lines : List Text) :
    (∀ l ∈ lines, Passed group_id l) ∨
      ∃ pre line post, lines = pre ++ line :: post ∧ (∀ l ∈ pre, Passed group_id l) ∧
        ¬ Passed group_id line := by
  induction lines with
  | nil => exact Or.inl fun l hl => absurd hl List.not_mem_nil
  | cons line lines ih =>
      by_cases hline : Passed group_id line
      · cases ih with
        | inl hall =>
            refine Or.inl fun l hl => ?_
            cases List.mem_cons.mp hl with
            | inl heq => exact heq ▸ hline
            | inr hl => exact hall l hl
        | inr hfirst =>
            obtain ⟨pre, line', post, hlines, hpre, hnot⟩ := hfirst
            refine Or.inr ⟨line :: pre, line', post, by rw [hlines, List.cons_append], ?_, hnot⟩
            intro l hl
            cases List.mem_cons.mp hl with
            | inl heq => exact heq ▸ hline
            | inr hl => exact hpre l hl
      · exact Or.inr ⟨[], line, lines, rfl, fun l hl => absurd hl List.not_mem_nil, hline⟩

def listed (field user : Text) : Text := if field = [] then user else field ++ ',' :: user

theorem join_membersOf (field user : Text) :
    join ',' (membersOf field ++ [user]) = listed field user := by
  rw [membersOf, listed]
  split
  · simp [join, List.intercalate_singleton]
  · rw [join_snoc (List.splitOn_ne_nil ',' field), join_splitOn]

theorem join_users (field user : Text) :
    join ',' (if field.splitOn ',' = [[]] then [user] else field.splitOn ',' ++ [user]) =
      listed field user := by
  have hnil : field.splitOn ',' = [[]] ↔ field = [] := by
    constructor
    · intro h
      have hjoin := join_splitOn ',' field
      rw [h] at hjoin
      simpa [join, List.intercalate_singleton] using hjoin.symm
    · intro h
      rw [h, List.splitOn_nil]
  rw [← join_membersOf, membersOf]
  simp only [hnil]
  split
  · rfl
  · rfl

theorem joined_eq (user content : Text) (pos : Nat) (line name gid members : Text) :
    joined user content pos line name gid members =
      if user ∈ members.dropLast.splitOn ',' then content
      else overwrite content pos (join ':' [name, ['x'], gid, listed members.dropLast user] ++
        '\n' :: content.drop (pos + line.length)) := by
  rw [joined]
  split
  · rfl
  · simp only [join_users]
    congr 1
    simp [join, List.intercalate_cons_cons, List.intercalate_singleton]

theorem joins_iff (hsplit : line.splitOn ':' = [name, passwd, gid, members])
    (hgid : pyInt gid = some (group_id : Int)) (line' : Text) :
    Joins group_id user line line' ↔
      line' = if user ∈ membersOf members then line
        else join ':' [name, passwd, gid, listed members user] := by
  constructor
  · intro h
    obtain ⟨name', passwd', gid', members', hsplit', _, hline'⟩ := h
    rw [hsplit] at hsplit'
    cases hsplit'
    rw [hline', join_membersOf]
  · intro h
    refine ⟨name, passwd, gid, members, hsplit, hgid, ?_⟩
    rw [h, join_membersOf]

theorem splitOn_newline (l : Text) (fs : List Text) :
    (l ++ ['\n']).splitOn ':' = fs ↔
      ∃ gs last, l.splitOn ':' = gs ++ [last] ∧ fs = gs ++ [last ++ ['\n']] := by
  obtain ⟨gs, last, hsplit, hsnoc⟩ := splitOn_snoc ':' l
  rw [hsnoc ['\n'] (by decide)]
  constructor
  · intro h
    exact ⟨gs, last, hsplit, h.symm⟩
  · intro h
    obtain ⟨gs', last', hsplit', hfs⟩ := h
    rw [hsplit] at hsplit'
    obtain ⟨hgs, hlast⟩ := List.append_inj' hsplit' rfl
    rw [hfs, hgs, List.cons.inj hlast |>.1]

theorem four_fields_newline {l : Text}
    (h : (l ++ ['\n']).splitOn ':' = [name, passwd, gid, members]) :
    ∃ field, members = field ++ ['\n'] ∧ l.splitOn ':' = [name, passwd, gid, field] := by
  obtain ⟨gs, last, hsplit, hfs⟩ := (splitOn_newline l _).mp h
  have hparts : gs = [name, passwd, gid] ∧ last ++ ['\n'] = members := by
    have happ : [name, passwd, gid] ++ [members] = gs ++ [last ++ ['\n']] := hfs
    obtain ⟨hgs, hlast⟩ := List.append_inj' happ rfl
    exact ⟨hgs.symm, (List.cons.inj hlast).1.symm⟩
  exact ⟨last, hparts.2.symm, by rw [hsplit, hparts.1]; rfl⟩

theorem not_joins_of_passed (h : Passed group_id line) (line' : Text) :
    ¬ Joins group_id user (chomp line) line' := by
  intro hjoins
  obtain ⟨name, passwd, gid, members, hsplit, hgid, _⟩ := hjoins
  have hraw : ∃ members', line.splitOn ':' = [name, passwd, gid, members'] := by
    by_cases hlast : line.getLast? = some '\n'
    · rw [chomp, if_pos hlast] at hsplit
      refine ⟨members ++ ['\n'], ?_⟩
      rw [← List.dropLast_append_getLast? '\n' hlast]
      exact (splitOn_newline _ _).mpr ⟨[name, passwd, gid], members, hsplit, rfl⟩
    · rw [chomp, if_neg hlast] at hsplit
      exact ⟨members, hsplit⟩
  obtain ⟨members', hraw⟩ := hraw
  obtain ⟨n, hn, hne⟩ := h name passwd gid members' hraw
  rw [hgid] at hn
  exact hne (Option.some.inj hn).symm

/-- A line that is not the one with the new member stays as it is. -/
theorem joinsOne_at {old new : List Text} (h : JoinsOne group_id user old new) {k : Nat}
    {a b : Text} (ha : old[k]? = some a) (hb : new[k]? = some b) :
    a = b ∨ Joins group_id user a b := by
  obtain ⟨pre, l, l', post, hold, hnew, hjoins⟩ := h
  rw [hold] at ha
  rw [hnew] at hb
  by_cases hk : k = pre.length
  · rw [hk, List.getElem?_append_right (Nat.le_refl _), Nat.sub_self] at ha hb
    rw [← Option.some.inj ha, ← Option.some.inj hb]
    exact Or.inr hjoins
  · have hsame : (pre ++ l :: post)[k]? = (pre ++ l' :: post)[k]? := by
      by_cases hlt : k < pre.length
      · rw [List.getElem?_append_left hlt, List.getElem?_append_left hlt]
      · rw [List.getElem?_append_right (Nat.le_of_not_lt hlt),
          List.getElem?_append_right (Nat.le_of_not_lt hlt)]
        cases hsub : k - pre.length with
        | zero => omega
        | succ j => rfl
    rw [hsame, hb] at ha
    exact Or.inl (Option.some.inj ha).symm

theorem joinsOne_length {old new : List Text} (h : JoinsOne group_id user old new) :
    new.length = old.length := by
  obtain ⟨pre, l, l', post, hold, hnew, _⟩ := h
  rw [hold, hnew, List.length_append, List.length_append, List.length_cons, List.length_cons]

end

/-- The line found can be rewritten: the user is in the list, or the password field is `x`.
In a last line without a newline the list loses its last byte. -/
def Rewritable (user passwd members : Text) : Prop :=
  if members.getLast? = some '\n' then
    user ∈ members.dropLast.splitOn ',' ∨ passwd = ['x']
  else
    user ∈ members.dropLast.splitOn ',' ∧ user ∈ members.splitOn ',' ∨
      passwd = ['x'] ∧ (members = [] ∨ members = user ∧ user.length = 1)

/-- The first line that the loop does not pass, in the text `u` between `pre` and `post`: `l`
without its end, if it has one, and `field` its list of members. -/
structure FoundLine (group_id : Nat) (u : Text) (pre : List Text) (line : Text) (post : List Text)
    (name passwd gid members l field : Text) : Prop where
  read : readlines u = pre ++ line :: post
  passed : ∀ l ∈ pre, Passed group_id l
  split : line.splitOn ':' = [name, passwd, gid, members]
  number : pyInt gid = some (group_id : Int)
  fields : l.splitOn ':' = [name, passwd, gid, field]
  oneLine : '\n' ∉ l
  chomped : chomp line = l
  form : line = l ++ ['\n'] ∧ members = field ++ ['\n'] ∨ line = l ∧ members = field ∧ post = []

section

variable {group_id : Nat} {user : Name} {u line name passwd gid members : Text}
  {pre post : List Text}

/-- What is left behind a shorter text is the end of the longer one. -/
theorem overwrite_line (a b c new : Text) :
    ∃ residue, overwrite (a ++ (b ++ c)) a.length (new ++ '\n' :: c) =
        a ++ (new ++ '\n' :: (c ++ residue)) ∧ (b.length ≤ new.length + 1 → residue = []) := by
  refine ⟨(a ++ (b ++ c)).drop (a.length + (new ++ '\n' :: c).length), ?_, fun hlen => ?_⟩
  · rw [overwrite, List.take_left]
    simp
  · apply List.drop_of_length_le
    simp only [List.length_append, List.length_cons]
    omega

/-- The two forms of a line that the loop finds, with its end and without. -/
theorem found_line (hread : readlines u = pre ++ line :: post)
    (hsplit : line.splitOn ':' = [name, passwd, gid, members]) :
    ∃ l field, l.splitOn ':' = [name, passwd, gid, field] ∧ '\n' ∉ l ∧ chomp line = l ∧
      (line = l ++ ['\n'] ∧ members = field ++ ['\n'] ∨
        line = l ∧ members = field ∧ post = []) := by
  obtain ⟨-, -, -, hline⟩ := readlines_parts hread
  cases hline with
  | inl hend =>
      obtain ⟨l, hl, heq⟩ := hend
      rw [heq] at hsplit
      obtain ⟨field, hmembers, hfields⟩ := four_fields_newline hsplit
      exact ⟨l, field, hfields, hl, by rw [heq, chomp_newline], Or.inl ⟨heq, hmembers⟩⟩
  | inr hlast =>
      exact ⟨line, members, hsplit, hlast.1, chomp_of_not_mem hlast.1,
        Or.inr ⟨rfl, rfl, hlast.2.2⟩⟩

theorem linesOf_parts (hread : readlines u = pre ++ line :: post) :
    linesOf u = pre.map chomp ++ chomp line :: post.map chomp := by
  rw [linesOf, hread, List.map_append, List.map_cons]

theorem linesOf_behind (hread : readlines u = pre ++ line :: post) :
    linesOf post.flatten = post.map chomp := by
  have hlines := linesOf_parts hread
  obtain ⟨htext, hpre, hends, hline⟩ := readlines_parts hread
  cases hline with
  | inl hend =>
      obtain ⟨l, hl, heq⟩ := hend
      rw [htext, linesOf_endsLine hends, linesOf, hpre, heq, List.append_assoc,
        chomp_newline] at hlines
      have hbehind := List.append_cancel_left hlines
      rw [List.singleton_append, linesOf_line hl] at hbehind
      exact (List.cons.inj hbehind).2
  | inr hlast =>
      rw [hlast.2.2]
      rfl

/-- The lines after the edit, with what a shorter line leaves at the end of the file. -/
theorem linesOf_joined (hread : readlines u = pre ++ line :: post)
    (hsplit : line.splitOn ':' = [name, passwd, gid, members])
    (hnew : user.text ∉ members.dropLast.splitOn ',') :
    ∃ residue, linesOf (joined user.text u pre.flatten.length line name gid members) =
        pre.map chomp ++ join ':' [name, ['x'], gid, listed members.dropLast user.text] ::
          linesOf (post.flatten ++ residue) ∧
      (line.length ≤ (join ':' [name, ['x'], gid, listed members.dropLast user.text]).length + 1 →
        residue = []) := by
  obtain ⟨htext, hpre, hends, -⟩ := readlines_parts hread
  obtain ⟨l, field, hfields, hl, -, hform⟩ := found_line hread hsplit
  have hfield : ∀ f ∈ [name, passwd, gid, field], '\n' ∉ f :=
    fun f hf hmem => hl ((mem_splitOn (hfields ▸ hf)).2 _ hmem)
  have hshort : '\n' ∉ members.dropLast := by
    cases hform with
    | inl hend =>
        rw [hend.2, List.dropLast_concat]
        exact hfield field (by simp)
    | inr hlast =>
        rw [hlast.2.1]
        exact fun hmem => hfield field (by simp) (List.dropLast_subset field hmem)
  have hline : '\n' ∉ join ':' [name, ['x'], gid, listed members.dropLast user.text] := by
    have hlisted : '\n' ∉ listed members.dropLast user.text := by
      rw [listed]
      split
      · exact user.oneLine
      · simp [hshort, user.oneLine]
    have hname := hfield name (by simp)
    have hgid := hfield gid (by simp)
    simp [join, List.intercalate_cons_cons, List.intercalate_singleton, hname, hgid, hlisted]
  obtain ⟨residue, hover, hres⟩ := overwrite_line pre.flatten line post.flatten
    (join ':' [name, ['x'], gid, listed members.dropLast user.text])
  refine ⟨residue, ?_, hres⟩
  have hdrop : u.drop (pre.flatten.length + line.length) = post.flatten := by
    rw [htext, ← List.append_assoc, ← List.length_append, List.drop_left]
  rw [joined_eq, if_neg hnew, hdrop]
  rw [htext, hover, linesOf_endsLine hends, linesOf_line hline, linesOf, hpre]

theorem listed_length (field : Text) (user : Name) :
    field.length < (listed field user.text).length := by
  have hpos := List.length_pos_iff.mpr user.nonempty
  rw [listed]
  split
  next h =>
    rw [h]
    exact hpos
  next => simp only [List.length_append, List.length_cons]; omega

theorem entry_length (name passwd gid field : Text) :
    (join ':' [name, passwd, gid, field]).length =
      name.length + passwd.length + gid.length + field.length + 3 := by
  simp only [join, List.intercalate_cons_cons, List.intercalate_singleton, List.length_append,
    List.length_singleton]
  omega

theorem mem_membersOf (user : Name) (field : Text) :
    user.text ∈ membersOf field ↔ user.text ∈ field.splitOn ',' := by
  rw [membersOf]
  split
  next h =>
    rw [h, List.splitOn_nil]
    simp [user.nonempty]
  next => exact Iff.rfl

/-- A line whose edit is no edit has the user in its list. -/
theorem joins_self_iff {l field : Text} (hfields : l.splitOn ':' = [name, passwd, gid, field])
    (hgid : pyInt gid = some (group_id : Int)) :
    Joins group_id user.text l l ↔ user.text ∈ field.splitOn ',' := by
  rw [joins_iff hfields hgid, ← mem_membersOf]
  constructor
  · intro h
    by_contra hnot
    rw [if_neg hnot] at h
    have hlen := congrArg List.length h
    rw [← join_splitOn ':' l, hfields, entry_length, entry_length] at hlen
    have := listed_length field user
    omega
  · intro h
    rw [if_pos h]

/-- In a list cut short, the new member makes up for what is cut only in one case. -/
theorem listed_dropLast {field : Text} (h : listed field.dropLast user.text = field) :
    field = user.text ∧ user.text.length = 1 := by
  have hpos := List.length_pos_iff.mpr user.nonempty
  have hlen := congrArg List.length h
  rw [listed] at h hlen
  split at h
  next hnil =>
    have hdrop := congrArg List.length hnil
    rw [if_pos hnil] at hlen
    simp only [List.length_dropLast, List.length_nil] at hdrop
    exact ⟨h.symm, by omega⟩
  next hne =>
    rw [if_neg hne] at hlen
    simp only [List.length_append, List.length_dropLast, List.length_cons] at hlen
    omega

theorem listed_cut {field : Text}
    (h : listed field.dropLast user.text = listed field user.text) : field = [] := by
  by_contra hne
  have hpos := List.length_pos_iff.mpr hne
  have hlen := congrArg List.length h
  rw [listed, listed, if_neg hne] at hlen
  split at hlen <;>
    simp only [List.length_append, List.length_dropLast, List.length_cons] at hlen <;> omega

theorem colon_not_mem_listed (user : Name) {field : Text} (h : ':' ∉ field) :
    ':' ∉ listed field user.text := by
  rw [listed]
  split
  · exact user.oneField
  · simp [h, user.oneField]

theorem edited_line {l field cut : Text} (hfields : l.splitOn ':' = [name, passwd, gid, field])
    (hgid : pyInt gid = some (group_id : Int)) (hcut : ':' ∉ cut)
    (h : l = join ':' [name, ['x'], gid, listed cut user.text] ∨
      Joins group_id user.text l (join ':' [name, ['x'], gid, listed cut user.text])) :
    passwd = ['x'] ∧
      (listed cut user.text = field ∨ listed cut user.text = listed field user.text) := by
  have hnone : ∀ f ∈ [name, passwd, gid, field], ':' ∉ f :=
    fun f hf => (mem_splitOn (hfields ▸ hf)).1
  have hsplits : ∀ p t, ':' ∉ p → ':' ∉ t →
      (join ':' [name, p, gid, t]).splitOn ':' = [name, p, gid, t] := by
    intro p t hp ht
    apply splitOn_join (by simp)
    simp [hnone name, hp, hnone gid, ht]
  have hnew := hsplits ['x'] _ (by decide) (colon_not_mem_listed user hcut)
  have hsame : l = join ':' [name, ['x'], gid, listed cut user.text] →
      passwd = ['x'] ∧ listed cut user.text = field := by
    intro heq
    rw [← heq, hfields] at hnew
    simp only [List.cons.injEq, true_and, and_true] at hnew
    exact ⟨hnew.1, hnew.2.symm⟩
  cases h with
  | inl heq => exact ⟨(hsame heq).1, Or.inl (hsame heq).2⟩
  | inr hjoins =>
      rw [joins_iff hfields hgid] at hjoins
      split at hjoins
      · exact ⟨(hsame hjoins.symm).1, Or.inl (hsame hjoins.symm).2⟩
      · have hold := hsplits passwd _ (hnone passwd (by simp))
          (colon_not_mem_listed user (hnone field (by simp)))
        rw [← hjoins, hnew] at hold
        simp only [List.cons.injEq, true_and, and_true] at hold
        exact ⟨hold.1.symm, Or.inr hold.2⟩

theorem dropLast_short {t : Text} (h : t = [] ∨ t = user.text ∧ user.text.length = 1) :
    t.dropLast = [] := by
  cases h with
  | inl hnil => rw [hnil]; rfl
  | inr huser =>
      apply List.eq_nil_of_length_eq_zero
      rw [List.length_dropLast, huser.1, huser.2]

variable {l field : Text} (h : FoundLine group_id u pre line post name passwd gid members l field)

include h

theorem FoundLine.lines : linesOf u = pre.map chomp ++ l :: post.map chomp := by
  rw [linesOf_parts h.read, h.chomped]

theorem FoundLine.text : join ':' [name, passwd, gid, field] = l := by
  rw [← h.fields, join_splitOn]

theorem FoundLine.unended (hmembers : members = field) : ¬ members.getLast? = some '\n' := by
  intro hlast
  have hmem : '\n' ∈ field := hmembers ▸ List.mem_of_getLast? hlast
  exact h.oneLine ((mem_splitOn (f := field) (by rw [h.fields]; simp)).2 _ hmem)

/-- A file that stays as it is has the user in its list. -/
theorem joinsOne_self (hin : user.text ∈ field.splitOn ',') :
    JoinsOne group_id user.text (linesOf u) (linesOf u) :=
  ⟨_, l, l, _, h.lines, h.lines, (joins_self_iff h.fields h.number).mpr hin⟩

theorem mem_of_joinsOne_self (hpost : post = [])
    (hone : JoinsOne group_id user.text (linesOf u) (linesOf u)) :
    user.text ∈ field.splitOn ',' := by
  obtain ⟨p, a, b, q, ha, hb, hjoins⟩ := hone
  have hab : a = b := (List.cons.inj (List.append_cancel_left (ha.symm.trans hb))).1
  rw [← hab] at hjoins
  have hmem : a ∈ linesOf u := by
    rw [ha]
    simp
  rw [h.lines, hpost, List.map_nil] at hmem
  cases List.mem_append.mp hmem with
  | inl hmem =>
      obtain ⟨r, hr, hchompr⟩ := List.mem_map.mp hmem
      rw [← hchompr] at hjoins
      exact absurd hjoins (not_joins_of_passed (h.passed r hr) _)
  | inr hmem => rwa [List.mem_singleton.mp hmem, joins_self_iff h.fields h.number] at hjoins

theorem joinsOne_unchanged_iff (hold : user.text ∈ members.dropLast.splitOn ',') :
    JoinsOne group_id user.text (linesOf u) (linesOf u) ↔ Rewritable user.text passwd members := by
  rw [Rewritable]
  cases h.form with
  | inl hend =>
      obtain ⟨-, hmembers⟩ := hend
      rw [hmembers, List.dropLast_concat] at hold
      rw [hmembers, List.dropLast_concat, if_pos List.getLast?_concat]
      exact ⟨fun _ => Or.inl hold, fun _ => joinsOne_self h hold⟩
  | inr hlast =>
      obtain ⟨-, hmembers, hpost⟩ := hlast
      rw [if_neg (h.unended hmembers)]
      constructor
      · intro hone
        exact Or.inl ⟨hold, hmembers ▸ mem_of_joinsOne_self h hpost hone⟩
      · intro hready
        cases hready with
        | inl hin => exact joinsOne_self h (hmembers ▸ hin.2)
        | inr hshort =>
            rw [dropLast_short hshort.2, List.splitOn_nil] at hold
            exact absurd (List.mem_singleton.mp hold) user.nonempty

/-- The line written differs from the one found in the new member only. -/
theorem rewritable_of_joined (hnew : user.text ∉ members.dropLast.splitOn ',')
    (hone : JoinsOne group_id user.text (linesOf u)
      (linesOf (joined user.text u pre.flatten.length line name gid members))) :
    Rewritable user.text passwd members := by
  obtain ⟨residue, hlines, -⟩ := linesOf_joined h.read h.split hnew
  have hat : (linesOf u)[(pre.map chomp).length]? = some l := by
    rw [h.lines, List.getElem?_append_right (Nat.le_refl _), Nat.sub_self]
    rfl
  have hat' : (linesOf (joined user.text u pre.flatten.length line name gid members))[
      (pre.map chomp).length]? =
      some (join ':' [name, ['x'], gid, listed members.dropLast user.text]) := by
    rw [hlines, List.getElem?_append_right (Nat.le_refl _), Nat.sub_self]
    rfl
  have hcut : ':' ∉ members.dropLast := by
    intro hmem
    have hin := List.dropLast_subset members hmem
    exact (mem_splitOn (f := members) (by rw [h.split]; simp)).1 hin
  obtain ⟨hpasswd, hlist⟩ := edited_line h.fields h.number hcut (joinsOne_at hone hat hat')
  rw [Rewritable]
  cases h.form with
  | inl hend =>
      rw [hend.2, if_pos List.getLast?_concat]
      exact Or.inr hpasswd
  | inr hlast =>
      obtain ⟨-, hmembers, -⟩ := hlast
      rw [if_neg (h.unended hmembers)]
      rw [hmembers] at hlist ⊢
      cases hlist with
      | inl h => exact Or.inr ⟨hpasswd, Or.inr (listed_dropLast h)⟩
      | inr h => exact Or.inr ⟨hpasswd, Or.inl (listed_cut h)⟩

/-- With `x` for the password the new line is the longer one. -/
theorem joined_ended (hline : line = l ++ ['\n']) (hmembers : members = field ++ ['\n'])
    (hnew : user.text ∉ field.splitOn ',') (hpasswd : passwd = ['x']) :
    JoinsOne group_id user.text (linesOf u)
      (linesOf (joined user.text u pre.flatten.length line name gid members)) := by
  have hcut : members.dropLast = field := by rw [hmembers, List.dropLast_concat]
  obtain ⟨residue, hlines, hres⟩ := linesOf_joined h.read h.split (hcut ▸ hnew)
  rw [hcut] at hlines hres
  have hlen := listed_length field user
  have hone : residue = [] := by
    apply hres
    rw [hline, List.length_append, ← h.text, entry_length, entry_length, hpasswd]
    simp only [List.length_singleton]
    omega
  rw [hone, List.append_nil, linesOf_behind h.read] at hlines
  refine ⟨_, l, _, _, h.lines, hlines, (joins_iff h.fields h.number _).mpr ?_⟩
  rw [if_neg fun hmem => hnew ((mem_membersOf user field).mp hmem), hpasswd]

/-- A last line without an end is rewritten well where its list has nothing to lose. -/
theorem joined_last (hline : line = l) (hmembers : members = field) (hpost : post = [])
    (hnew : user.text ∉ members.dropLast.splitOn ',') (hpasswd : passwd = ['x'])
    (hlist : members = [] ∨ members = user.text ∧ user.text.length = 1) :
    JoinsOne group_id user.text (linesOf u)
      (linesOf (joined user.text u pre.flatten.length line name gid members)) := by
  obtain ⟨residue, hlines, hres⟩ := linesOf_joined h.read h.split hnew
  rw [dropLast_short hlist, listed, if_pos rfl] at hlines hres
  have hone : residue = [] := by
    apply hres
    rw [hline, ← h.text, entry_length, entry_length, hpasswd, ← hmembers]
    cases hlist with
    | inl hnil => rw [hnil]; simp only [List.length_nil]; omega
    | inr huser => rw [huser.1]; omega
  have hold := h.lines
  rw [hone, hpost, List.flatten_nil, List.append_nil] at hlines
  rw [hpost] at hold
  refine ⟨_, l, _, _, hold, hlines, ?_⟩
  cases hlist with
  | inl hnil =>
      refine (joins_iff h.fields h.number _).mpr ?_
      have hnot : user.text ∉ membersOf field := by
        rw [← hmembers, hnil, membersOf, if_pos rfl]
        exact List.not_mem_nil
      rw [if_neg hnot, hpasswd, ← hmembers, hnil, listed, if_pos rfl]
  | inr huser =>
      have hsame : join ':' [name, ['x'], gid, user.text] = l := by
        rw [← h.text, hpasswd, ← hmembers, huser.1]
      rw [hsame, joins_self_iff h.fields h.number, ← hmembers, huser.1,
        List.splitOn_eq_singleton user.oneMember]
      exact List.mem_singleton_self _

omit h

theorem joinsOne_joined_iff (hread : readlines u = pre ++ line :: post)
    (hpre : ∀ l ∈ pre, Passed group_id l)
    (hsplit : line.splitOn ':' = [name, passwd, gid, members])
    (hgid : pyInt gid = some (group_id : Int)) :
    JoinsOne group_id user.text (linesOf u)
        (linesOf (joined user.text u pre.flatten.length line name gid members)) ↔
      Rewritable user.text passwd members := by
  obtain ⟨l, field, hfields, hl, hchomp, hform⟩ := found_line hread hsplit
  have h : FoundLine group_id u pre line post name passwd gid members l field :=
    ⟨hread, hpre, hsplit, hgid, hfields, hl, hchomp, hform⟩
  by_cases hold : user.text ∈ members.dropLast.splitOn ','
  · -- the file stays as it is
    rw [joined_eq, if_pos hold]
    exact joinsOne_unchanged_iff h hold
  · constructor
    · exact rewritable_of_joined h hold
    · intro hready
      rw [Rewritable] at hready
      cases hform with
      | inl hend =>
          obtain ⟨hline, hmembers⟩ := hend
          have hcut : members.dropLast = field := by rw [hmembers, List.dropLast_concat]
          rw [hcut] at hold hready
          rw [if_pos (by rw [hmembers, List.getLast?_concat])] at hready
          exact joined_ended h hline hmembers hold (hready.resolve_left hold)
      | inr hlast =>
          obtain ⟨hline, hmembers, hpost⟩ := hlast
          rw [if_neg (h.unended hmembers)] at hready
          obtain ⟨hpasswd, hlist⟩ := hready.resolve_left fun hin => hold hin.1
          exact joined_last h hline hmembers hpost hold hpasswd hlist

end

end Jailkit.Tools
