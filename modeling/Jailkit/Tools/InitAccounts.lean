import Jailkit.JkLib.Populate
import Jailkit.Tools.InitSections

/-!
The users and groups that the sections ask for, and the passwd and group files of the jail
while jk_init goes through the sections.
-/
namespace Jailkit.Tools

open JkLib

structure AccountFiles where
  passwd : Option Text
  group : Option Text
  deriving DecidableEq, Repr

structure Accounts where
  didusers : List Text
  didgroups : List Text
  files : AccountFiles
  deriving DecidableEq, Repr

/-- Before the first section, in a jail without the two files. -/
def noAccounts : Accounts := ⟨[], [], ⟨none, none⟩⟩

def usersListed (cfg : Cfg) (section_ : Text) : List Text :=
  configGetOptionAsList cfg section_ "users".toList

def groupsListed (cfg : Cfg) (section_ : Text) : List Text :=
  configGetOptionAsList cfg section_ "groups".toList

def notDone (didusers tmplist : List Text) : List Text := tmplist.filter fun tmp => tmp ∉ didusers

/-- What the body of a section does to the accounts. Both lists are compared with `didusers`,
and the call changes them. The section's paths are copied before, which can leave other files
than there were. -/
def accountsBody (cfg : Cfg) (realPasswd realGroup : Text)
    (copies : Text → AccountFiles → AccountFiles) (section_ : Text) (st : Accounts) :
    Option Accounts := do
  let files := copies section_ st.files
  let users := notDone st.didusers (usersListed cfg section_)
  let groups := notDone st.didusers (groupsListed cfg section_)
  let r ← initPasswdAndGroup realPasswd realGroup users groups files.passwd files.group
  let didusers := st.didusers ++ r.users
  some ⟨didusers, didusers ++ r.groups, some r.passwd, some r.group⟩

/-- Copying a section's paths leaves the two files alone, or copies the real ones. -/
def CopiesReal (realPasswd realGroup : Text) (copies : Text → AccountFiles → AccountFiles) : Prop :=
  ∀ section_ files,
    ((copies section_ files).passwd = files.passwd ∨
      (copies section_ files).passwd = some realPasswd) ∧
    ((copies section_ files).group = files.group ∨ (copies section_ files).group = some realGroup)

def HasLine (n content : Text) : Prop := ∃ l ∈ linesOf content, Names n l

instance (n content : Text) : Decidable (HasLine n content) :=
  inferInstanceAs (Decidable (∃ l ∈ linesOf content, Names n l))

/-- Who is requested and has a line in the real file has one in the jail's file. -/
def Supplied (requested : List Text) (real : Text) (file : Option Text) : Prop :=
  ∀ n ∈ requested, HasLine n real → HasLine n (file.getD [])

/-- A run ends, and when it has ended every account is there that a section asked for. -/
def AccountsReach (cfg : Cfg) (realPasswd realGroup : Text)
    (copies : Text → AccountFiles → AccountFiles) (args : List Text) : Prop :=
  (∃ fuel run,
    activateConfig cfg (accountsBody cfg realPasswd realGroup copies) fuel args noAccounts =
      some run) ∧
  ∀ fuel run,
    activateConfig cfg (accountsBody cfg realPasswd realGroup copies) fuel args noAccounts =
      some run →
    ∀ x, ReachedFrom (includesections cfg) (args.filter cfg.hasSection) x →
      Supplied (usersListed cfg x) realPasswd run.jail.files.passwd ∧
      Supplied (groupsListed cfg x) realGroup run.jail.files.group

/-- What a section relies on when its accounts are copied: no line that is read raises an
error, and each name that it lists and that has a line in the real file has one in the jail,
or a new line for it is among those wanted. -/
structure SectionReady (cfg : Cfg) (realPasswd realGroup : Text) (section_ : Text)
    (st : Accounts) : Prop where
  gids : ∀ l ∈ taken (notDone st.didusers (usersListed cfg section_)) (readlines realPasswd),
    4 ≤ (l.splitOn ':').length
  jailGroups : ∀ l ∈ readlines (st.files.group.getD []), (l.splitOn ':').length ≠ 2
  realGroups : notDone st.didusers (groupsListed cfg section_) ≠ [] ∨
      taken (notDone st.didusers (usersListed cfg section_)) (readlines realPasswd) ≠ [] →
    ∀ l ∈ readlines realGroup, (l.splitOn ':').length ≠ 2
  users : ∀ n ∈ notDone st.didusers (usersListed cfg section_), HasLine n realPasswd →
    HasLine n (st.files.passwd.getD []) ∨
      ∃ l ∈ newLines (notDone st.didusers (usersListed cfg section_)) realPasswd
        (st.files.passwd.getD []), Names n l
  groups : ∀ n ∈ groupsListed cfg section_, HasLine n realGroup →
    HasLine n (st.files.group.getD []) ∨
      ∃ l ∈ newLines (groupsWanted realPasswd (notDone st.didusers (usersListed cfg section_))
          (notDone st.didusers (groupsListed cfg section_)) (st.files.passwd.getD [])) realGroup
        (st.files.group.getD []), Names n l

/-- Each section of the run finds what it relies on, when its paths have been copied. -/
def SectionsReady (cfg : Cfg) (realPasswd realGroup : Text)
    (copies : Text → AccountFiles → AccountFiles) (args : List Text) : Prop :=
  ∀ fuel log before section_ after st,
    activateConfig cfg logBody fuel args [] = some log →
    log.jail = before ++ section_ :: after →
    bodies (accountsBody cfg realPasswd realGroup copies) before noAccounts = some st →
    SectionReady cfg realPasswd realGroup section_ { st with files := copies section_ st.files }

/-- Between two sections: the files are whole lines, and what the sections of before asked for
is there. -/
structure Settled (cfg : Cfg) (realPasswd realGroup : Text) (before : List Text) (st : Accounts) :
    Prop where
  passwdEnds : EndsLine (st.files.passwd.getD [])
  groupEnds : EndsLine (st.files.group.getD [])
  done : ∀ n ∈ st.didusers, ∃ x ∈ before, n ∈ usersListed cfg x
  users : ∀ x ∈ before, Supplied (usersListed cfg x) realPasswd st.files.passwd
  groups : ∀ x ∈ before, Supplied (groupsListed cfg x) realGroup st.files.group

/-- Whole lines of the real file behind what was there, and among them the new ones. -/
def AddsLines (wanted : List Text) (real old new : Text) : Prop :=
  ∃ lines, new = old ++ lines.flatten ∧ lines.Sublist (readlines real) ∧
    (∀ l ∈ lines, 2 ≤ (l.splitOn ':').length) ∧ newLines wanted real old ⊆ lines

section

variable {n real old new realPasswd realGroup : Text} {wanted less users groups lines : List Text}
  {passwd group : Option Text}

theorem taken_subset (h : less ⊆ wanted) : taken less lines ⊆ taken wanted lines := by
  intro l hl
  obtain ⟨hmem, n, hn, hmarks⟩ := mem_taken.mp hl
  exact mem_taken.mpr ⟨hmem, n, h hn, hmarks⟩

theorem mem_withGids :
    n ∈ withGids groups lines ↔ n ∈ groups ∨ ∃ l ∈ lines, (l.splitOn ':')[3]?.getD [] = n := by
  induction lines generalizing groups with
  | nil => simp [withGids]
  | cons line lines ih =>
      rw [withGids, ih]
      split
      next hmem =>
        constructor
        · rintro (hn | hn)
          · exact Or.inl hn
          · simpa using Or.inr (Or.inr hn)
        · rintro (hn | ⟨l, hl, heq⟩)
          · exact Or.inl hn
          · cases List.mem_cons.mp hl with
            | inl hline => exact Or.inl (heq ▸ hline ▸ hmem)
            | inr hl => exact Or.inr ⟨l, hl, heq⟩
      next => simp [or_assoc, eq_comm]

theorem withGids_subset {lines' : List Text} (h : lines ⊆ lines') :
    withGids groups lines ⊆ withGids groups lines' := by
  intro n hn
  rw [mem_withGids] at hn ⊢
  cases hn with
  | inl hmem => exact Or.inl hmem
  | inr hgid =>
      obtain ⟨l, hl, heq⟩ := hgid
      exact Or.inr ⟨l, h hl, heq⟩

theorem hasLine_kept (h : AddsLines wanted real old new) (hends : EndsLine old)
    (hold : HasLine n old) : HasLine n new := by
  obtain ⟨lines, rfl, hsub, -, -⟩ := h
  obtain ⟨l, hl, hname⟩ := hold
  refine ⟨l, ?_, hname⟩
  rw [linesOf_new hsub (Or.inl hends)]
  exact List.mem_append_left _ hl

theorem hasLine_new (h : AddsLines wanted real old new) (hends : EndsLine old)
    (hnew : ∃ l ∈ newLines wanted real old, Names n l) : HasLine n new := by
  obtain ⟨lines, rfl, hsub, -, hlines⟩ := h
  obtain ⟨l, hl, hname⟩ := hnew
  refine ⟨chomp l, ?_, (names_new hl).mpr hname⟩
  rw [linesOf_new hsub (Or.inl hends)]
  exact List.mem_append_right _ (List.mem_map.mpr ⟨l, hlines hl, rfl⟩)

theorem endsLine_readlines (h : EndsLine real) (hsub : lines ⊆ readlines real) :
    EndsLine lines.flatten := by
  induction lines with
  | nil => exact Or.inl rfl
  | cons line lines ih =>
      obtain ⟨hline, hrest⟩ := List.cons_subset.mp hsub
      obtain ⟨before, after, hparts⟩ := List.append_of_mem hline
      obtain ⟨ht, -, -, hlast⟩ := readlines_parts hparts
      refine endsLine_append ?_ (ih hrest)
      cases hlast with
      | inl hend =>
          obtain ⟨l, -, rfl⟩ := hend
          exact Or.inr ⟨l, rfl⟩
      | inr hopen =>
          obtain ⟨-, -, rfl⟩ := hopen
          rw [ht, List.flatten_nil, List.append_nil] at h
          exact endsLine_suffix h

theorem endsLine_adds (h : AddsLines wanted real old new) (hreal : EndsLine real)
    (hends : EndsLine old) : EndsLine new := by
  obtain ⟨lines, rfl, hsub, -, -⟩ := h
  exact endsLine_append hends (endsLine_readlines hreal hsub.subset)

/-- Who is still wanted when the jail's file has been read is copied. -/
theorem addsLines_taken (h : unmarked (readlines old) wanted ⊆ less) :
    AddsLines wanted real old (old ++ (taken less (readlines real)).flatten) :=
  ⟨_, rfl, List.filter_sublist, fun _ hl => Nat.le_of_succ_le (taken_fields hl), taken_subset h⟩

/-- A call with any lists, also with names that are listed twice. -/
theorem initPasswdAndGroup_adds
    (hgids : ∀ l ∈ taken users (readlines realPasswd), 4 ≤ (l.splitOn ':').length)
    (hjail : ∀ l ∈ readlines (group.getD []), (l.splitOn ':').length ≠ 2)
    (hreal : groups ≠ [] ∨ taken users (readlines realPasswd) ≠ [] →
      ∀ l ∈ readlines realGroup, (l.splitOn ':').length ≠ 2) :
    ∃ r, initPasswdAndGroup realPasswd realGroup users groups passwd group = some r ∧
      r.users ⊆ users ∧ AddsLines users realPasswd (passwd.getD []) r.passwd ∧
      AddsLines (groupsWanted realPasswd users groups (passwd.getD [])) realGroup
        (group.getD []) r.group := by
  obtain ⟨rest, hrest, hleft, hsub⟩ : ∃ rest, dropPresent 3 (readlines (passwd.getD [])) users =
      some rest ∧ unmarked (readlines (passwd.getD [])) users ⊆ rest ∧ rest ⊆ users :=
    dropPresent_some (fun l _ => Nat.lt_or_ge _ _) (Nat.le_refl 3) users
  have htaken : taken rest (readlines realPasswd) ⊆ taken users (readlines realPasswd) :=
    taken_subset hsub
  have hwrite : writeUsers rest realPasswd groups =
      some ((taken rest (readlines realPasswd)).flatten,
        withGids groups (taken rest (readlines realPasswd))) :=
    writeUsers_taken fun l hl => hgids l (htaken hl)
  have htwo : ∀ l ∈ readlines (group.getD []),
      (l.splitOn ':').length < 2 ∨ 3 ≤ (l.splitOn ':').length := by
    intro l hl
    have hne := hjail l hl
    omega
  obtain ⟨left, hdrop, hwanted, hless⟩ := dropPresent_some htwo (by decide)
    (withGids groups (taken rest (readlines realPasswd)))
  have hfields : left ≠ [] → ∀ l ∈ readlines realGroup, (l.splitOn ':').length ≠ 2 := by
    intro hne
    obtain ⟨n, hn⟩ := List.exists_mem_of_ne_nil left hne
    apply hreal
    cases mem_withGids.mp (hless hn) with
    | inl hmem => exact Or.inl (List.ne_nil_of_mem hmem)
    | inr hgid =>
        obtain ⟨l, hl, -⟩ := hgid
        exact Or.inr (List.ne_nil_of_mem (htaken hl))
  have hgroups : groupsWanted realPasswd users groups (passwd.getD []) ⊆
      withGids groups (taken rest (readlines realPasswd)) :=
    withGids_subset (taken_subset hleft)
  refine ⟨⟨rest, left, passwd.getD [] ++ (taken rest (readlines realPasswd)).flatten,
    group.getD [] ++ (taken left (readlines realGroup)).flatten⟩, ?_, hsub,
    addsLines_taken hleft,
    addsLines_taken (List.Subset.trans (unmarked_subset hgroups) hwanted)⟩
  rw [initPasswdAndGroup]
  simp only [hrest, hwrite, hdrop, writeGroups_taken hfields, Option.bind_eq_bind,
    Option.bind_some]

end

section

variable {cfg : Cfg} {realPasswd realGroup section_ : Text} {before args : List Text}
  {st : Accounts} {copies : Text → AccountFiles → AccountFiles}

theorem settled_start (cfg : Cfg) (realPasswd realGroup : Text) :
    Settled cfg realPasswd realGroup [] noAccounts where
  passwdEnds := Or.inl rfl
  groupEnds := Or.inl rfl
  done _ hn := absurd hn List.not_mem_nil
  users _ hx := absurd hx List.not_mem_nil
  groups _ hx := absurd hx List.not_mem_nil

theorem supplied_copied {requested : List Text} {real : Text} {file file' : Option Text}
    (h : Supplied requested real file) (hfile : file' = file ∨ file' = some real) :
    Supplied requested real file' := by
  cases hfile with
  | inl hsame => exact hsame ▸ h
  | inr hreal =>
      rw [hreal]
      exact fun n _ hline => hline

theorem endsLine_copied {real : Text} {file file' : Option Text} (hreal : EndsLine real)
    (h : EndsLine (file.getD [])) (hfile : file' = file ∨ file' = some real) :
    EndsLine (file'.getD []) := by
  cases hfile with
  | inl hsame => exact hsame ▸ h
  | inr hcopied =>
      rw [hcopied]
      exact hreal

theorem settled_copies (hpasswd : EndsLine realPasswd) (hgroup : EndsLine realGroup)
    (hcopies : CopiesReal realPasswd realGroup copies)
    (h : Settled cfg realPasswd realGroup before st) (section_ : Text) :
    Settled cfg realPasswd realGroup before { st with files := copies section_ st.files } where
  passwdEnds := endsLine_copied hpasswd h.passwdEnds (hcopies section_ st.files).1
  groupEnds := endsLine_copied hgroup h.groupEnds (hcopies section_ st.files).2
  done := h.done
  users x hx := supplied_copied (h.users x hx) (hcopies section_ st.files).1
  groups x hx := supplied_copied (h.groups x hx) (hcopies section_ st.files).2

theorem settled_section (hpasswd : EndsLine realPasswd) (hgroup : EndsLine realGroup)
    (h : Settled cfg realPasswd realGroup before { st with files := copies section_ st.files })
    (hready : SectionReady cfg realPasswd realGroup section_
      { st with files := copies section_ st.files }) :
    ∃ st', accountsBody cfg realPasswd realGroup copies section_ st = some st' ∧
      Settled cfg realPasswd realGroup (before ++ [section_]) st' := by
  obtain ⟨r, hr, husers, hpasswdAdds, hgroupAdds⟩ :=
    initPasswdAndGroup_adds hready.gids hready.jailGroups hready.realGroups
  dsimp only at hr husers hpasswdAdds hgroupAdds
  have hkeptUser : ∀ {n}, HasLine n ((copies section_ st.files).passwd.getD []) →
      HasLine n r.passwd := fun hline => hasLine_kept hpasswdAdds h.passwdEnds hline
  have hkeptGroup : ∀ {n}, HasLine n ((copies section_ st.files).group.getD []) →
      HasLine n r.group := fun hline => hasLine_kept hgroupAdds h.groupEnds hline
  refine ⟨_, by rw [accountsBody, hr]; rfl, ?_, ?_, ?_, ?_, ?_⟩
  · exact endsLine_adds hpasswdAdds hpasswd h.passwdEnds
  · exact endsLine_adds hgroupAdds hgroup h.groupEnds
  · intro n hn
    cases List.mem_append.mp hn with
    | inl hold =>
        obtain ⟨x, hx, hlisted⟩ := h.done n hold
        exact ⟨x, List.mem_append_left _ hx, hlisted⟩
    | inr hnew =>
        have hlisted := (List.mem_filter.mp (husers hnew)).1
        exact ⟨section_, List.mem_append_right _ List.mem_cons_self, hlisted⟩
  · intro x hx n hn hreal
    cases List.mem_append.mp hx with
    | inl hold => exact hkeptUser (h.users x hold n hn hreal)
    | inr hthis =>
        rw [List.mem_singleton.mp hthis] at hn
        by_cases hdone : n ∈ st.didusers
        · obtain ⟨y, hy, hlisted⟩ := h.done n hdone
          exact hkeptUser (h.users y hy n hlisted hreal)
        · have hwanted : n ∈ notDone st.didusers (usersListed cfg section_) :=
            List.mem_filter.mpr ⟨hn, decide_eq_true hdone⟩
          cases hready.users n hwanted hreal with
          | inl hold => exact hkeptUser hold
          | inr hnew => exact hasLine_new hpasswdAdds h.passwdEnds hnew
  · intro x hx n hn hreal
    cases List.mem_append.mp hx with
    | inl hold => exact hkeptGroup (h.groups x hold n hn hreal)
    | inr hthis =>
        rw [List.mem_singleton.mp hthis] at hn
        cases hready.groups n hn hreal with
        | inl hold => exact hkeptGroup hold
        | inr hnew => exact hasLine_new hgroupAdds h.groupEnds hnew

/-- The sections of a log, as far as they have run. -/
theorem settled_bodies {order : List Text} (hpasswd : EndsLine realPasswd)
    (hgroup : EndsLine realGroup) (hcopies : CopiesReal realPasswd realGroup copies)
    (hready : ∀ before section_ after st, order = before ++ section_ :: after →
      bodies (accountsBody cfg realPasswd realGroup copies) before noAccounts = some st →
      SectionReady cfg realPasswd realGroup section_ { st with files := copies section_ st.files })
    (before after : List Text) (horder : order = before ++ after) :
    ∃ st, bodies (accountsBody cfg realPasswd realGroup copies) before noAccounts = some st ∧
      Settled cfg realPasswd realGroup before st := by
  induction before using List.reverseRecOn generalizing after with
  | nil => exact ⟨noAccounts, rfl, settled_start cfg realPasswd realGroup⟩
  | append_singleton before section_ ih =>
      rw [List.append_assoc, List.singleton_append] at horder
      obtain ⟨st, hst, hsettled⟩ := ih (section_ :: after) horder
      have hcopied := settled_copies hpasswd hgroup hcopies hsettled section_
      obtain ⟨st', hst', hsettled'⟩ := settled_section hpasswd hgroup hcopied
        (hready before section_ after st horder hst)
      refine ⟨st', ?_, hsettled'⟩
      rw [bodies_append, hst, Option.bind_some]
      exact (bind_pure _).trans hst'

/-- Every requested account reaches the jail where each section finds what it relies on. -/
theorem accounts_reach (cfg : Cfg) {args : List Text}
    (hcircle : ∀ x, ReachedFrom (includesections cfg) (args.filter cfg.hasSection) x →
      ¬ Relation.TransGen (Next (includesections cfg)) x x)
    (hpasswd : EndsLine realPasswd) (hgroup : EndsLine realGroup)
    (hcopies : CopiesReal realPasswd realGroup copies)
    (hready : SectionsReady cfg realPasswd realGroup copies args) :
    AccountsReach cfg realPasswd realGroup copies args := by
  have hsettled : ∀ fuel log, activateConfig cfg logBody fuel args [] = some log →
      ∃ st, bodies (accountsBody cfg realPasswd realGroup copies) log.jail noAccounts = some st ∧
        Settled cfg realPasswd realGroup log.jail st :=
    fun fuel log hlog => settled_bodies hpasswd hgroup hcopies
      (fun before section_ after st => hready fuel log before section_ after st hlog) log.jail []
      (List.append_nil _).symm
  have hruns : ∀ fuel, activateConfig cfg (accountsBody cfg realPasswd realGroup copies) fuel args
      noAccounts = (activateConfig cfg logBody fuel args []).bind
        (runLog (accountsBody cfg realPasswd realGroup copies) noAccounts) :=
    fun fuel => activateLoop_bodies fuel args [] _ noAccounts
  constructor
  · obtain ⟨fuel, log, hlog⟩ := exists_log hcircle
    obtain ⟨st, hst, -⟩ := hsettled fuel log hlog
    refine ⟨fuel, ⟨log.didsections, st⟩, ?_⟩
    rw [hruns, hlog, Option.bind_some, runLog, hst]
    rfl
  · intro fuel run hrun x hx
    rw [hruns] at hrun
    obtain ⟨log, hlog, hrunLog⟩ := Option.bind_eq_some_iff.mp hrun
    obtain ⟨st, hst, hdone⟩ := hsettled fuel log hlog
    rw [runLog, hst] at hrunLog
    cases hrunLog
    have hactivated := activateLoop_activated (sectionsDone_start cfg) hlog
    have hmem := (mem_log_iff hactivated x).mpr hx
    exact ⟨hdone.users x hmem, hdone.groups x hmem⟩

def wwwPasswd : Text := "www:x:7:9::/:/bin/sh\n".toList

def wwwGroup : Text := "www:x:7:\n".toList

def mailGroup : Text := "www:x:7:\nmail:x:8:\n".toList

def webSections : Cfg :=
  [⟨"web".toList, [("includesections".toList, "mail".toList), ("users".toList, "www".toList),
      ("groups".toList, "www".toList)]⟩,
    ⟨"mail".toList, [("groups".toList, "mail".toList)]⟩]

theorem accounts_reach_web :
    AccountsReach webSections wwwPasswd mailGroup (fun _ files => files) ["web".toList] := by
  apply accounts_reach webSections
  · intro x _ hcircle
    obtain ⟨y, -, hlast⟩ := Relation.TransGen.tail'_iff.mp hcircle
    obtain ⟨z, hfirst, -⟩ := Relation.TransGen.head'_iff.mp hcircle
    have hall : ∀ x ∈ webSections.flatMap fun s => includesections webSections s.name,
        includesections webSections x = [] := by decide +kernel
    rw [Next, hall x (includesections_finite webSections z hfirst)] at hlast
    cases hlast
  · exact Or.inr ⟨"www:x:7:9::/:/bin/sh".toList, rfl⟩
  · exact Or.inr ⟨"www:x:7:\nmail:x:8:".toList, rfl⟩
  · exact fun _ _ => ⟨Or.inl rfl, Or.inl rfl⟩
  · intro fuel log before section_ after st hlog horder hst
    have hjail : log.jail = ["mail".toList, "web".toList] := by
      match fuel with
      | 0 | 1 => cases hlog
      | fuel + 2 =>
          cases hlog
          rfl
    rw [hjail] at horder
    match before with
    | [] =>
        cases horder
        cases hst
        constructor
        all_goals decide +kernel
    | [x] =>
        cases horder
        have hmail : bodies (accountsBody webSections wwwPasswd mailGroup fun _ files => files)
            ["mail".toList] noAccounts =
              some ⟨[], ["mail".toList], some [], some "mail:x:8:\n".toList⟩ := by decide +kernel
        cases hmail.symm.trans hst
        constructor
        all_goals decide +kernel
    | x :: y :: before => simp at horder

def wwwSections : Cfg :=
  [⟨"user".toList, [("users".toList, "www".toList)]⟩,
    ⟨"group".toList, [("groups".toList, "www".toList)]⟩]

theorem group_done_as_user :
    ¬ AccountsReach wwwSections wwwPasswd wwwGroup (fun _ files => files)
      ["user".toList, "group".toList] := by
  intro h
  have hrun : activateConfig wwwSections (accountsBody wwwSections wwwPasswd wwwGroup
      fun _ files => files) 1 ["user".toList, "group".toList] noAccounts =
        some ⟨[], ["www".toList], ["www".toList], some wwwPasswd, some []⟩ := by decide +kernel
  have hreached : ReachedFrom (includesections wwwSections)
      (["user".toList, "group".toList].filter (Cfg.hasSection wwwSections)) "group".toList :=
    reachedFrom_root (by decide +kernel)
  have hgroup := (h.2 1 _ hrun _ hreached).2 "www".toList (by decide +kernel) (by decide +kernel)
  revert hgroup
  decide +kernel

end

end Jailkit.Tools
