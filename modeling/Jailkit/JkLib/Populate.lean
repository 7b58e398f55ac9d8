import Jailkit.JkLib.PasswdGroup

/-!
When the files that `initPasswdAndGroup` leaves are complete, keep what was there and stay as
they are in a second call.
-/
namespace Jailkit.JkLib

def UniqueNames (real : Text) : Prop :=
  ∀ n, n ≠ [] → (linesOf real).countP (fun l => Names n l) ≤ 1

/-- The lines of before stand, who is requested and known has a line, and no name of a new line
has a second one. -/
structure Completes (requested : List Text) (real old new : Text) : Prop where
  kept : linesOf old <+: linesOf new
  complete : ∀ n ∈ requested, (∃ l ∈ linesOf real, Names n l) → ∃ l ∈ linesOf new, Names n l
  once : UniqueNames real → ∀ n, n ≠ [] →
    (∃ l ∈ (linesOf new).drop (linesOf old).length, Names n l) →
      (linesOf new).countP (fun l => Names n l) ≤ 1

/-- The lines of the real file with a name or a number that is wanted and that no line of the
jail's file has. -/
def newLines (wanted : List Text) (real old : Text) : List Text :=
  taken (unmarked (readlines old) wanted) (readlines real)

structure FileReady (requested wanted : List Text) (real old : Text) : Prop where
  ends : EndsLine old ∨ newLines wanted real old = []
  complete : ∀ n ∈ requested, (∃ l ∈ linesOf real, Names n l) →
    (∃ l ∈ linesOf old, Names n l) ∨ ∃ l ∈ newLines wanted real old, Names n l
  once : UniqueNames real → ∀ n, n ≠ [] → (∃ l ∈ newLines wanted real old, Names n l) →
    ¬ ∃ l ∈ linesOf old, Names n l

section

variable {line n real old : Text} {lines requested wanted : List Text}

theorem names_chomp (h : 2 ≤ (line.splitOn ':').length) : Names n (chomp line) ↔ Names n line := by
  rw [chomp]
  split
  next hlast =>
    obtain ⟨fs, last, hsplit, hsnoc⟩ := splitOn_snoc ':' line.dropLast
    have hline := hsnoc ['\n'] (by decide)
    rw [List.dropLast_append_getLast? '\n' hlast] at hline
    rw [Names, Names, hline, hsplit]
    cases fs with
    | nil =>
        rw [hline] at h
        exact absurd h (by simp)
    | cons f fs => exact Iff.rfl
  next => exact Iff.rfl

theorem readlines_flatten (h : lines.Sublist (readlines real)) :
    readlines lines.flatten = lines := by
  obtain ⟨ls, rest, ht, hls, hrest⟩ := exists_unlines real
  rw [ht, readlines_unlines hls hrest] at h
  obtain ⟨a, b, hlines, ha, hb⟩ := List.sublist_append_iff.mp h
  obtain ⟨ls', hls', heq⟩ := List.sublist_map_iff.mp ha
  have hsub : ∀ l ∈ ls', '\n' ∉ l := fun l hl => hls l (hls'.subset hl)
  have hlast : ∃ rest', '\n' ∉ rest' ∧ b = lastLine rest' := by
    rw [lastLine] at hb
    split at hb
    next hnil => exact ⟨[], by simp, List.sublist_nil.mp hb⟩
    next hne =>
      cases List.sublist_singleton.mp hb with
      | inl hnil => exact ⟨[], by simp, hnil⟩
      | inr hrest' => exact ⟨rest, hrest, by rw [hrest', lastLine, if_neg hne]⟩
  obtain ⟨rest', hrest', hb'⟩ := hlast
  rw [hlines, heq, hb', flatten_readlines, readlines_unlines hsub hrest']

theorem mem_taken {w : Text} :
    w ∈ taken wanted lines ↔ w ∈ lines ∧ Wanted wanted w := by
  rw [taken, List.mem_filter, decide_eq_true_eq]

theorem taken_fields {w : Text} (h : w ∈ taken wanted lines) : 3 ≤ (w.splitOn ':').length := by
  obtain ⟨-, n, -, hmarks⟩ := mem_taken.mp h
  exact hmarks.1

theorem newLines_sublist : (newLines wanted real old).Sublist (readlines real) :=
  List.filter_sublist

theorem newLines_fields : ∀ l ∈ newLines wanted real old, 2 ≤ (l.splitOn ':').length :=
  fun _ hl => Nat.le_of_succ_le (taken_fields hl)

theorem line_cons {w : Text} (h : w ∈ readlines real) (hfields : 2 ≤ (w.splitOn ':').length) :
    ∃ c x, w = c :: x ∧ c ≠ '\n' := by
  obtain ⟨hchomp, hw⟩ := mem_readlines h
  have hne : chomp w ≠ [] := by
    intro hnil
    rw [hnil] at hw
    cases hw with
    | inl hw =>
        rw [hw] at hfields
        exact absurd hfields (by decide)
    | inr hw => exact hw.2 hw.1
  obtain ⟨c, x, hcx⟩ := List.exists_cons_of_ne_nil hne
  have hc : c ≠ '\n' := by
    intro heq
    rw [hcx, heq] at hchomp
    exact hchomp List.mem_cons_self
  cases hw with
  | inl hw => exact ⟨c, x ++ ['\n'], by rw [hw, hcx]; rfl, hc⟩
  | inr hw => exact ⟨c, x, by rw [hw.1, hcx], hc⟩

/-- Lines of another file, written at the end. -/
theorem linesOf_new (hlines : lines.Sublist (readlines real)) (h : EndsLine old ∨ lines = []) :
    linesOf (old ++ lines.flatten) = linesOf old ++ lines.map chomp := by
  cases h with
  | inl hends => rw [linesOf_endsLine hends, linesOf, linesOf, readlines_flatten hlines]
  | inr hnil => rw [hnil, List.flatten_nil, List.append_nil, List.map_nil, List.append_nil]

theorem readlines_new (hlines : lines.Sublist (readlines real)) (h : EndsLine old ∨ lines = []) :
    readlines (old ++ lines.flatten) = readlines old ++ lines := by
  cases h with
  | inl hends => rw [readlines_endsLine hends, readlines_flatten hlines]
  | inr hnil => rw [hnil, List.flatten_nil, List.append_nil, List.append_nil]

theorem kept_iff (hlines : lines.Sublist (readlines real))
    (hfields : ∀ l ∈ lines, 2 ≤ (l.splitOn ':').length) :
    linesOf old <+: linesOf (old ++ lines.flatten) ↔ EndsLine old ∨ lines = [] := by
  constructor
  · intro h
    by_contra hnot
    rw [not_or] at hnot
    obtain ⟨w, ws, hws⟩ := List.exists_cons_of_ne_nil hnot.2
    have hw : w ∈ lines := hws ▸ List.mem_cons_self
    obtain ⟨c, x, hcx, hc⟩ := line_cons (hlines.subset hw) (hfields w hw)
    rw [hws, List.flatten_cons, hcx] at h
    exact not_prefix_glued hnot.1 hc _ h
  · intro h
    rw [linesOf_new hlines h]
    exact List.prefix_append _ _

theorem names_new {w : Text} (h : w ∈ newLines wanted real old) :
    Names n (chomp w) ↔ Names n w :=
  names_chomp (newLines_fields w h)

theorem exists_names_new :
    (∃ l ∈ (newLines wanted real old).map chomp, Names n l) ↔
      ∃ l ∈ newLines wanted real old, Names n l := by
  constructor
  · intro h
    obtain ⟨l, hl, hnames⟩ := h
    obtain ⟨w, hw, heq⟩ := List.mem_map.mp hl
    rw [← heq, names_new hw] at hnames
    exact ⟨w, hw, hnames⟩
  · intro h
    obtain ⟨w, hw, hnames⟩ := h
    exact ⟨chomp w, List.mem_map.mpr ⟨w, hw, rfl⟩, (names_new hw).mpr hnames⟩

/-- The file that the call leaves is right where these conditions hold on what it reads. -/
theorem completes_iff :
    Completes requested real old (old ++ (newLines wanted real old).flatten) ↔
      FileReady requested wanted real old := by
  constructor
  · intro h
    have hends := (kept_iff newLines_sublist newLines_fields).mp h.kept
    have hlines := linesOf_new newLines_sublist hends
    refine ⟨hends, fun n hn hreal => ?_, fun hunique n hname hnew => ?_⟩
    · obtain ⟨l, hl, hnames⟩ := h.complete n hn hreal
      rw [hlines] at hl
      cases List.mem_append.mp hl with
      | inl hl => exact Or.inl ⟨l, hl, hnames⟩
      | inr hl => exact Or.inr (exists_names_new.mp ⟨l, hl, hnames⟩)
    · intro hold
      have hadded := exists_names_new.mpr hnew
      have honce := h.once hunique n hname (by rwa [hlines, List.drop_left])
      rw [hlines, List.countP_append] at honce
      have hpos : 0 < (linesOf old).countP fun l => Names n l :=
        List.countP_pos_iff.mpr (by simpa using hold)
      have hpos' : 0 < ((newLines wanted real old).map chomp).countP fun l => Names n l :=
        List.countP_pos_iff.mpr (by simpa using hadded)
      omega
  · intro h
    have hlines := linesOf_new newLines_sublist h.ends
    refine ⟨(kept_iff newLines_sublist newLines_fields).mpr h.ends, fun n hn hreal => ?_,
      fun hunique n hname hnew => ?_⟩
    · rw [hlines]
      cases h.complete n hn hreal with
      | inl hold =>
          obtain ⟨l, hl, hnames⟩ := hold
          exact ⟨l, List.mem_append_left _ hl, hnames⟩
      | inr hadded =>
          obtain ⟨l, hl, hnames⟩ := exists_names_new.mpr hadded
          exact ⟨l, List.mem_append_right _ hl, hnames⟩
    · rw [hlines, List.drop_left] at hnew
      have hnone := h.once hunique n hname (exists_names_new.mp hnew)
      have hzero : (linesOf old).countP (fun l => Names n l) = 0 := by
        rw [List.countP_eq_zero]
        intro l hl hnames
        exact hnone ⟨l, hl, of_decide_eq_true hnames⟩
      have hreal : ((newLines wanted real old).map chomp).Sublist (linesOf real) :=
        newLines_sublist.map chomp
      rw [hlines, List.countP_append, hzero, Nat.zero_add]
      exact le_trans hreal.countP_le (hunique n hname)

/-- In a second call nobody is wanted whose line the first one wrote. -/
theorem newLines_again {wanted' : List Text}
    (hends : EndsLine old ∨ newLines wanted real old = []) (hsub : wanted' ⊆ wanted) :
    newLines wanted' real (old ++ (newLines wanted real old).flatten) = [] := by
  rw [newLines, taken, List.filter_eq_nil_iff, readlines_new newLines_sublist hends]
  intro line hline hwanted
  obtain ⟨n, hn, hmarks⟩ := of_decide_eq_true hwanted
  obtain ⟨hn', hnone⟩ := List.mem_filter.mp hn
  have hnone := of_decide_eq_true hnone
  have hfresh : n ∈ unmarked (readlines old) wanted := by
    refine List.mem_filter.mpr ⟨hsub hn', decide_eq_true fun h => hnone ?_⟩
    obtain ⟨l, hl, hl'⟩ := h
    exact ⟨l, List.mem_append_left _ hl, hl'⟩
  have hnew : line ∈ newLines wanted real old := mem_taken.mpr ⟨hline, n, hfresh, hmarks⟩
  exact hnone ⟨line, List.mem_append_right _ hnew, hmarks⟩

end

/-- What the call is for: it returns, both files are right, and a second call with the same
lists changes neither. -/
def Populates (realPasswd realGroup : Text) (users groups : List Text)
    (passwd group : Option Text) : Prop :=
  ∃ r, initPasswdAndGroup realPasswd realGroup users groups passwd group = some r ∧
    Completes users realPasswd (passwd.getD []) r.passwd ∧
    Completes groups realGroup (group.getD []) r.group ∧
    ∃ again, initPasswdAndGroup realPasswd realGroup users groups (some r.passwd)
        (some r.group) = some again ∧
      again.passwd = r.passwd ∧ again.group = r.group

def groupsWanted (realPasswd : Text) (users groups : List Text) (passwd : Text) : List Text :=
  withGids groups (newLines users realPasswd passwd)

structure PopulateReady (realPasswd realGroup : Text) (users groups : List Text)
    (passwd group : Text) : Prop where
  gids : ∀ l ∈ newLines users realPasswd passwd, 4 ≤ (l.splitOn ':').length
  jailGroups : ∀ l ∈ readlines group, (l.splitOn ':').length ≠ 2
  realGroups : unmarked (readlines group) (groupsWanted realPasswd users groups passwd) ≠ [] →
    ∀ l ∈ readlines realGroup, (l.splitOn ':').length ≠ 2
  usersReady : FileReady users users realPasswd passwd
  groupsReady : FileReady groups (groupsWanted realPasswd users groups passwd) realGroup group

section

variable {realPasswd realGroup passwd group : Text} {users groups lines : List Text}

theorem nodup_withGids (h : groups.Nodup) (lines : List Text) : (withGids groups lines).Nodup := by
  induction lines generalizing groups with
  | nil => exact h
  | cons line lines ih =>
      rw [withGids]
      split
      · exact ih h
      next hnot =>
        apply ih
        rw [List.nodup_append]
        refine ⟨h, by simp, fun a ha b hb heq => hnot ?_⟩
        rwa [← List.mem_singleton.mp hb, ← heq]

theorem subset_withGids (groups lines : List Text) : groups ⊆ withGids groups lines := by
  induction lines generalizing groups with
  | nil => exact List.Subset.refl _
  | cons line lines ih =>
      rw [withGids]
      split
      · exact ih groups
      · exact List.Subset.trans (List.subset_append_left _ _) (ih _)

theorem taken_nil (lines : List Text) : taken [] lines = [] := by
  rw [taken, List.filter_eq_nil_iff]
  intro l _ h
  obtain ⟨n, hn, -⟩ := of_decide_eq_true h
  cases hn

theorem writeUsers_taken (h : ∀ l ∈ taken users (readlines realPasswd), 4 ≤ (l.splitOn ':').length) :
    writeUsers users realPasswd groups =
      some ((taken users (readlines realPasswd)).flatten,
        withGids groups (taken users (readlines realPasswd))) := by
  rw [writeUsers]
  split
  next hnil =>
    rw [hnil, taken_nil]
    rfl
  next => exact copyUsers_eq h groups

theorem writeGroups_taken (h : groups ≠ [] → ∀ l ∈ readlines realGroup, (l.splitOn ':').length ≠ 2) :
    writeGroups groups realGroup = some (taken groups (readlines realGroup)).flatten := by
  rw [writeGroups]
  split
  next hnil =>
    rw [hnil, taken_nil]
    rfl
  next hne => exact copyGroups_eq (h hne)

theorem writeUsers_eq
    (h : ∀ l ∈ newLines users realPasswd passwd, 4 ≤ (l.splitOn ':').length) :
    writeUsers (unmarked (readlines passwd) users) realPasswd groups =
      some ((newLines users realPasswd passwd).flatten,
        groupsWanted realPasswd users groups passwd) :=
  writeUsers_taken h

theorem writeGroups_eq (h : unmarked (readlines group) groups ≠ [] →
      ∀ l ∈ readlines realGroup, (l.splitOn ':').length ≠ 2) :
    writeGroups (unmarked (readlines group) groups) realGroup =
      some (newLines groups realGroup group).flatten :=
  writeGroups_taken h

theorem writeUsers_gids {r : Text × List Text}
    (h : writeUsers (unmarked (readlines passwd) users) realPasswd groups = some r) :
    ∀ l ∈ newLines users realPasswd passwd, 4 ≤ (l.splitOn ':').length := by
  intro l hl
  by_contra hshort
  rw [writeUsers] at h
  split at h
  next hnil =>
    rw [newLines, hnil, taken_nil] at hl
    cases hl
  next =>
    rw [copyUsers_three hl (Nat.lt_of_not_le hshort)] at h
    cases h

/-- What the call does to the lines it reads. -/
theorem initPasswdAndGroup_iff (husers : users.Nodup) (hgroups : groups.Nodup) {r : Populated} :
    initPasswdAndGroup realPasswd realGroup users groups (some passwd) (some group) = some r ↔
      (∀ l ∈ newLines users realPasswd passwd, 4 ≤ (l.splitOn ':').length) ∧
      (∀ l ∈ readlines group, (l.splitOn ':').length ≠ 2) ∧
      ∃ text,
        writeGroups (unmarked (readlines group) (groupsWanted realPasswd users groups passwd))
          realGroup = some text ∧
        r = ⟨unmarked (readlines passwd) users,
          unmarked (readlines group) (groupsWanted realPasswd users groups passwd),
          passwd ++ (newLines users realPasswd passwd).flatten, group ++ text⟩ := by
  have hjailUsers : dropPresent 3 (readlines passwd) users =
      some (unmarked (readlines passwd) users) :=
    dropPresent_eq (fun l _ => Nat.lt_or_ge _ _) (Nat.le_refl 3) husers
  rw [initPasswdAndGroup]
  simp only [Option.getD_some, hjailUsers, Option.bind_eq_bind, Option.bind_some]
  by_cases hgids : ∀ l ∈ newLines users realPasswd passwd, 4 ≤ (l.splitOn ':').length
  · simp only [writeUsers_eq hgids, Option.bind_some]
    by_cases hjail : ∀ l ∈ readlines group, (l.splitOn ':').length ≠ 2
    · have hjailGroups : dropPresent 2 (readlines group)
          (groupsWanted realPasswd users groups passwd) =
            some (unmarked (readlines group)
              (groupsWanted realPasswd users groups passwd)) := by
        refine dropPresent_eq (fun l hl => ?_) (by omega) (nodup_withGids hgroups _)
        have hne := hjail l hl
        omega
      simp only [hjailGroups, Option.bind_some, Option.bind_eq_some_iff, Option.some.injEq]
      constructor
      · intro h
        obtain ⟨text, htext, hr⟩ := h
        exact ⟨hgids, hjail, text, htext, hr.symm⟩
      · intro h
        obtain ⟨-, -, text, htext, hr⟩ := h
        exact ⟨text, htext, hr.symm⟩
    · constructor
      · intro h
        simp only [not_forall, not_not] at hjail
        obtain ⟨l, hl, htwo⟩ := hjail
        rw [dropPresent_two hl htwo, Option.bind_none] at h
        cases h
      · intro h
        exact absurd h.2.1 hjail
  · constructor
    · intro h
      obtain ⟨w, hw, -⟩ := Option.bind_eq_some_iff.mp h
      exact absurd (writeUsers_gids hw) hgids
    · intro h
      exact absurd h.1 hgids

/-- The group file has what the text written has, where the file is right. -/
theorem newGroups_fields {wanted : List Text} {text : Text}
    (h : writeGroups (unmarked (readlines group) wanted) realGroup = some text)
    (hkept : linesOf group <+: linesOf (group ++ text))
    (hagain : ∀ l ∈ readlines (group ++ text), (l.splitOn ':').length ≠ 2)
    (hne : unmarked (readlines group) wanted ≠ []) :
    ∀ l ∈ readlines realGroup, (l.splitOn ':').length ≠ 2 := by
  rw [writeGroups, if_neg hne] at h
  obtain ⟨htext, hbare⟩ := copyGroups_some h
  generalize hws : ((readlines realGroup).filter fun l =>
    Wanted (unmarked (readlines group) wanted) l ∨
      Bare (unmarked (readlines group) wanted) l) = ws at htext
  have hsub : ws.Sublist (readlines realGroup) := hws ▸ List.filter_sublist
  have hfields : ∀ l ∈ ws, 2 ≤ (l.splitOn ':').length := by
    intro l hl
    rw [← hws, List.mem_filter, decide_eq_true_eq] at hl
    cases hl.2 with
    | inl hwanted =>
        obtain ⟨n, -, hmarks⟩ := hwanted
        exact Nat.le_of_succ_le hmarks.1
    | inr hbare => exact hbare.1.ge
  rw [htext] at hkept hagain
  rw [readlines_new hsub ((kept_iff hsub hfields).mp hkept)] at hagain
  intro l hl htwo
  have hmem : l ∈ ws := by
    rw [← hws, List.mem_filter, decide_eq_true_eq]
    exact ⟨hl, Or.inr (hbare l hl htwo)⟩
  exact hagain l (List.mem_append_right _ hmem) htwo

end

/-- When both files are filled as they should be. -/
theorem populates_iff (realPasswd realGroup : Text) {users groups : List Text}
    (husers : users.Nodup) (hgroups : groups.Nodup) (passwd group : Option Text) :
    Populates realPasswd realGroup users groups passwd group ↔
      PopulateReady realPasswd realGroup users groups (passwd.getD []) (group.getD []) := by
  have hgetD : initPasswdAndGroup realPasswd realGroup users groups passwd group =
      initPasswdAndGroup realPasswd realGroup users groups (some (passwd.getD []))
        (some (group.getD [])) := rfl
  rw [Populates, hgetD]
  generalize passwd.getD [] = p
  generalize group.getD [] = g
  constructor
  · intro h
    obtain ⟨r, hr, hpasswd, hgroup, again, hagain, -, -⟩ := h
    obtain ⟨hgids, hjail, text, htext, heq⟩ := (initPasswdAndGroup_iff husers hgroups).mp hr
    obtain ⟨-, hjail', -⟩ := (initPasswdAndGroup_iff husers hgroups).mp hagain
    rw [heq] at hpasswd hgroup hjail'
    have hreal := newGroups_fields htext hgroup.kept hjail'
    rw [writeGroups_eq hreal] at htext
    cases htext
    exact ⟨hgids, hjail, hreal, completes_iff.mp hpasswd, completes_iff.mp hgroup⟩
  · intro h
    have hfirst := (initPasswdAndGroup_iff husers hgroups).mpr
      ⟨h.gids, h.jailGroups, _, writeGroups_eq h.realGroups, rfl⟩
    refine ⟨_, hfirst, completes_iff.mpr h.usersReady, completes_iff.mpr h.groupsReady, ?_⟩
    -- the second call finds every line that the first one wrote
    have husers' := newLines_again h.usersReady.ends (List.Subset.refl users)
    have hwanted : groupsWanted realPasswd users groups
        (p ++ (newLines users realPasswd p).flatten) = groups := by
      rw [groupsWanted, husers', withGids]
    have hgroups' := newLines_again h.groupsReady.ends
      (subset_withGids groups (newLines users realPasswd p))
    have hread := readlines_new newLines_sublist h.groupsReady.ends
    refine ⟨_, (initPasswdAndGroup_iff husers hgroups).mpr
      ⟨?_, ?_, _, writeGroups_eq ?_, rfl⟩, ?_, ?_⟩
    · simp [husers']
    · intro l hl
      rw [hread] at hl
      cases List.mem_append.mp hl with
      | inl hl => exact h.jailGroups l hl
      | inr hl =>
          have hlen := taken_fields hl
          omega
    · intro hne
      apply h.realGroups
      rw [hwanted] at hne
      obtain ⟨n, hn⟩ := List.exists_mem_of_ne_nil _ hne
      obtain ⟨hn, hnone⟩ := List.mem_filter.mp hn
      apply List.ne_nil_of_mem (a := n)
      refine List.mem_filter.mpr ⟨subset_withGids groups _ hn, decide_eq_true fun hold => ?_⟩
      obtain ⟨l, hl, hmarks⟩ := hold
      refine of_decide_eq_true hnone ⟨l, ?_, hmarks⟩
      rw [hread]
      exact List.mem_append_left _ hl
    · simp [husers']
    · simp only [hwanted, hgroups', List.flatten_nil, List.append_nil]

theorem once_of_heads {wanted : List Text} {real old : Text}
    (h : ∀ l ∈ newLines wanted real old, ∀ l' ∈ linesOf old,
      (l.splitOn ':').head? ≠ (l'.splitOn ':').head?) (n : Text)
    (hnew : ∃ l ∈ newLines wanted real old, Names n l) : ¬ ∃ l ∈ linesOf old, Names n l := by
  intro hold
  obtain ⟨l, hl, hname⟩ := hnew
  obtain ⟨l', hl', hname'⟩ := hold
  exact h l hl l' hl' (hname.trans hname'.symm)

/-- The jail has root, and bob comes with his group and with a group that is asked for. -/
theorem populates_bob :
    Populates "root:x:0:0::/root:/bin/sh\nbob:x:7:8::/:/bin/sh\n".toList
      "root:x:0:\nbob:x:8:\nmail:x:9:\n".toList ["bob".toList] ["mail".toList]
      (some "root:x:0:0::/root:/bin/sh\n".toList) (some "root:x:0:\n".toList) := by
  refine (populates_iff _ _ (by decide) (by decide) _ _).mpr ⟨?_, ?_, ?_, ?_, ?_⟩
  · decide +kernel
  · decide +kernel
  · decide +kernel
  · refine ⟨Or.inl (Or.inr ⟨"root:x:0:0::/root:/bin/sh".toList, rfl⟩), by decide +kernel, ?_⟩
    exact fun _ n _ => once_of_heads (by decide +kernel) n
  · refine ⟨Or.inl (Or.inr ⟨"root:x:0:".toList, rfl⟩), by decide +kernel, ?_⟩
    exact fun _ n _ => once_of_heads (by decide +kernel) n

/-- A last line without its end is lost, and so is the user. -/
theorem user_glued :
    ∃ r, initPasswdAndGroup "bob:x:7:8::/:/bin/sh\n".toList [] ["bob".toList] []
        (some "root:x:0:0::/:/bin/sh".toList) (some []) = some r ∧
      "root:x:0:0::/:/bin/sh".toList ∉ linesOf r.passwd ∧
      ¬ ∃ l ∈ linesOf r.passwd, Names "bob".toList l :=
  ⟨⟨["bob".toList], ["8".toList], "root:x:0:0::/:/bin/shbob:x:7:8::/:/bin/sh\n".toList, []⟩,
    by decide +kernel, by decide +kernel, by decide +kernel⟩

end Jailkit.JkLib
