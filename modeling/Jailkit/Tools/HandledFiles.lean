import Jailkit.Tools.Suid
import Jailkit.Tools.Unforced

/-!
The list of handled files. `copy_dir_recursive`, and the symlink branch of
`copy_binaries_and_libs`, pass the list on in the place of `try_glob_matching`, so that the
files below a directory and the target of a symlink are checked against the default list, and
that one is returned.

As long as neither is copied, a call looks at and adds to the list that it was given and no
other, and returns it. The runs carry the source files that have been linked or copied.
-/
namespace Jailkit.Tools

open JkLib Raising

abbrev Copying := World × List Text

/-- A copy that fails may have been written in part. -/
def noteCopy (log : List Text) : (c : Call) → Res c → List Text
  | .link src _, .ok _ => log ++ [src]
  | .copyfile src _, _ => log ++ [src]
  | _, _ => log

/-- The runs in which every answer is one of these, with the source files copied. -/
def Logged (umask : Nat) (Ok : (c : Call) → Res c → Prop) : Prog.Machine Call Res Copying :=
  fun w c r w' => posix umask w.1 c r w'.1 ∧ w'.2 = noteCopy w.2 c r ∧ Ok c r

/-- Before each call the files and the cache may have changed in any way: what else the
program does is left open, if it neither copies nor touches the list. -/
def Disturbed (umask : Nat) (Ok : (c : Call) → Res c → Prop) : Prog.Machine Call Res Copying :=
  fun w c r w' => ∃ s, s.lists = w.1.lists ∧ Logged umask Ok (s, w.2) c r w'

/-- A symlink or a directory of the source is copied only where the default list is used. -/
def OwnList (ref : Nat) : (c : Call) → Res c → Prop
  | .readlink .source _, .ok _ | .listdir _, .ok _ => ref = 0
  | _, _ => True

/-- The list returned has what the list passed had, and each source file copied. -/
def GrowsList (umask : Nat) (Ok : (c : Call) → Res c → Prop) (ref : Nat) (p : Py Nat)
    (s : World) : Prop :=
  ∀ r w', Prog.Returns (Logged umask Ok) p (s, []) (.ok r) w' →
    s.lists ref ⊆ w'.1.lists r ∧ w'.2 ⊆ w'.1.lists r

def withLists (lists : Nat → List Text) (s : World) : World := { s with lists := lists }

/-- What the other lists have makes no difference to the result, to the files or to the list. -/
def IgnoresLists (umask : Nat) (Ok : (c : Call) → Res c → Prop) (ref : Nat) (p : Py Nat)
    (s : World) : Prop :=
  ∀ lists r w', lists ref = s.lists ref → Prog.Returns (Logged umask Ok) p (s, []) r w' →
    ∃ lists', lists' ref = w'.1.lists ref ∧
      Prog.Returns (Logged umask Ok) p (withLists lists s, []) r (withLists lists' w'.1, w'.2)

/-- However the run ends, and whatever happens in between. -/
def CopiesOnce (umask : Nat) (Ok : (c : Call) → Res c → Prop) (p : Py Nat) (s : World) : Prop :=
  ∀ r w', Prog.Returns (Disturbed umask Ok) p (s, []) r w' → w'.2.Nodup

theorem disturbed_of_logged {umask : Nat} {Ok : (c : Call) → Res c → Prop} {w w' : Copying}
    {c : Call} {r : Res c} (h : Logged umask Ok w c r w') : Disturbed umask Ok w c r w' :=
  ⟨w.1, rfl, h⟩

def Unlisted : Call → Prop
  | .listContains _ _ | .listAppend _ _ | .link _ _ | .copyfile _ _ => False
  | _ => True

def UsesList (ref : Nat) (_ : Copying) : Call → Prop
  | .listContains i _ | .listAppend i _ => i = ref
  | _ => True

theorem acts_lists {s s' : World} {does : Fs → Prop} {r : Except Exn Unit}
    (h : Acts s s' does r) (lists : Nat → List Text) :
    s'.lists = s.lists ∧ Acts (withLists lists s) (withLists lists s') does r := by
  cases r with
  | ok u =>
      obtain ⟨fs', hdoes, heq⟩ := h
      rw [heq]
      exact ⟨rfl, fs', hdoes, rfl⟩
  | error e =>
      rw [h.2]
      exact ⟨rfl, h.1, rfl⟩

theorem copies_lists {umask : Nat} {s s' : World} {src dst : Text} {r : Except Exn Unit}
    (h : Copies umask s s' src dst r) (lists : Nat → List Text) :
    s'.lists = s.lists ∧ Copies umask (withLists lists s) (withLists lists s') src dst r := by
  cases r with
  | ok u =>
      obtain ⟨loc, ino, a, fs', hloc, hfile, hreg, ha, hopen, heq⟩ := h
      rw [heq]
      exact ⟨rfl, loc, ino, a, fs', hloc, hfile, hreg, ha, hopen, rfl⟩
  | error e =>
      refine ⟨?_, h.1, ?_⟩
      · obtain heq | ⟨_, _, _, _, _, heq⟩ := h.2 <;> rw [heq]
      · obtain heq | ⟨a, content, fs', ha, hopen, heq⟩ := h.2
        · rw [heq]
          exact Or.inl rfl
        · rw [heq]
          exact Or.inr ⟨a, content, fs', ha, hopen, rfl⟩

theorem writes_lists {umask : Nat} {s s' : World} {path text : Text} {kept : Bool}
    {r : Except Exn Unit} (h : Writes umask s s' path kept text r) (lists : Nat → List Text) :
    s'.lists = s.lists ∧
      Writes umask (withLists lists s) (withLists lists s') path kept text r := by
  cases r with
  | ok u =>
      obtain ⟨a, fs', ha, hopen, heq⟩ := h
      rw [heq]
      exact ⟨rfl, a, fs', ha, hopen, rfl⟩
  | error e =>
      cases h.2 with
      | inl heq =>
          rw [heq]
          exact ⟨rfl, h.1, Or.inl rfl⟩
      | inr hpart =>
          obtain ⟨a, content, fs', ha, hopen, heq⟩ := hpart
          rw [heq]
          exact ⟨rfl, h.1, Or.inr ⟨a, content, fs', ha, hopen, rfl⟩⟩

theorem removes_lists {s s' : World} {path : Text} {r : Except Exn Unit}
    (h : Removes s s' path r) (lists : Nat → List Text) :
    s'.lists = s.lists ∧ Removes (withLists lists s) (withLists lists s') path r := by
  have hpart : ∀ e, (IsOsError e ∧ (s' = s ∨ ∃ loc p, s.fs.locate false path = some loc ∧
      s.fs.entry loc = some .dir ∧ (∀ x, p x = true → loc <+: x) ∧
      s' = { s with fs := s.fs.removeIf p })) → s'.lists = s.lists ∧ IsOsError e ∧
      (withLists lists s' = withLists lists s ∨ ∃ loc p, s.fs.locate false path = some loc ∧
      s.fs.entry loc = some .dir ∧ (∀ x, p x = true → loc <+: x) ∧
      withLists lists s' = { withLists lists s with fs := s.fs.removeIf p }) := by
    intro e he
    obtain ⟨hos, heq | ⟨loc, p, hloc, hdir, hp, heq⟩⟩ := he
    · rw [heq]
      exact ⟨rfl, hos, Or.inl rfl⟩
    · rw [heq]
      exact ⟨rfl, hos, Or.inr ⟨loc, p, hloc, hdir, hp, rfl⟩⟩
  cases r with
  | ok u =>
      obtain ⟨loc, hloc, hdir, heq⟩ := h
      rw [heq]
      exact ⟨rfl, loc, hloc, hdir, rfl⟩
  | error e =>
      cases e with
      | osErrorText =>
          rw [h.1]
          exact ⟨rfl, rfl, h.2⟩
      | osError _ | outsideJail | valueError | nameError | typeError | indexError
      | unboundLocal | memoryError | recursionError => exact hpart _ h

/-- A call that uses no list leaves the lists, and does the same beside other ones. -/
theorem posix_lists {umask : Nat} {s s' : World} {c : Call} {r : Res c}
    (hc : ∀ i x, c ≠ .listContains i x ∧ c ≠ .listAppend i x) (h : posix umask s c r s')
    (lists : Nat → List Text) :
    s'.lists = s.lists ∧ posix umask (withLists lists s) c r (withLists lists s') := by
  cases c with
  | listContains i x => exact absurd rfl (hc i x).1
  | listAppend i x => exact absurd rfl (hc i x).2
  | cacheGet _ _ | lstat _ _ | lstatSize _ | stat _ | «exists» _ | islink _ | readlink _ _
  | openRead _ | listdir _ | scandir _ =>
      obtain ⟨hans, heq⟩ := h
      rw [heq]
      exact ⟨rfl, hans, rfl⟩
  | cacheSet path buf =>
      have heq : s' = _ := h
      rw [heq]
      exact ⟨rfl, rfl⟩
  | glob _ | lddlistLibraries _ =>
      have heq : s' = s := h
      rw [heq]
      exact ⟨rfl, rfl⟩
  | mkdir _ _ | symlink _ _ | link _ _ | utime _ _ _ | chown _ _ _ | chmod _ _ | unlink _ =>
      exact acts_lists h lists
  | copyfile src dst => exact copies_lists h lists
  | writeFile path kept text => exact writes_lists h lists
  | rmtree path => exact removes_lists h lists
  | mknod path kind major minor =>
      obtain heq | ⟨a, fs', ha, hmk, heq⟩ := h
      · rw [heq]
        exact ⟨rfl, Or.inl rfl⟩
      · rw [heq]
        exact ⟨rfl, Or.inr ⟨a, fs', ha, hmk, rfl⟩⟩

theorem posix_withLists {umask ref : Nat} {s s' : World} {c : Call} {r : Res c}
    (hc : ∀ log, UsesList ref (s, log) c) (h : posix umask s c r s') {lists : Nat → List Text}
    (hlists : lists ref = s.lists ref) : ∃ lists', lists' ref = s'.lists ref ∧
      posix umask (withLists lists s) c r (withLists lists' s') := by
  by_cases hlist : ∀ i x, c ≠ .listContains i x ∧ c ≠ .listAppend i x
  · obtain ⟨hsame, hposix⟩ := posix_lists hlist h lists
    exact ⟨lists, by rw [hlists, hsame], hposix⟩
  · cases c with
    | listContains i x =>
        have hi : i = ref := hc []
        obtain ⟨hr, heq⟩ := h
        subst hi
        rw [heq]
        exact ⟨lists, hlists, by rw [hr, ← hlists]; rfl, rfl⟩
    | listAppend i x =>
        have hi : i = ref := hc []
        have heq : s' = _ := h
        subst hi
        rw [heq]
        refine ⟨fun j => if j = i then lists j ++ [x] else lists j, ?_, ?_⟩
        · simp [hlists]
        · refine congrArg (fun l => (⟨s.fs, s.statcache, l⟩ : World)) (funext fun j => ?_)
          by_cases hj : j = i
          · simp [hj, withLists]
          · simp [hj, withLists]
    | _ => exact absurd (fun _ _ => ⟨nofun, nofun⟩) hlist

theorem returns_withLists {α : Type} {umask ref : Nat} {Ok : (c : Call) → Res c → Prop}
    {p : Prog Call Res α} {Q : α → Copying → Prop} {w w' : Copying} {a : α}
    {lists : Nat → List Text} (hp : p.Always (Logged umask Ok) (UsesList ref) Q w)
    (hrun : Prog.Returns (Logged umask Ok) p w a w') (hlists : lists ref = w.1.lists ref) :
    ∃ lists', lists' ref = w'.1.lists ref ∧
      Prog.Returns (Logged umask Ok) p (withLists lists w.1, w.2) a
        (withLists lists' w'.1, w'.2) := by
  induction hrun generalizing lists with
  | ret => exact ⟨lists, hlists, .ret⟩
  | @call c k w r w₁ a w' hM _ ih =>
      obtain ⟨lists₁, hlists₁, hposix⟩ := posix_withLists (fun _ => hp.1) hM.1 hlists
      obtain ⟨lists', hlists', hrest⟩ := ih (hp.2 r w₁ hM) hlists₁
      have hstep : Logged umask Ok (withLists lists w.1, w.2) c r (withLists lists₁ w₁.1, w₁.2) :=
        ⟨hposix, hM.2⟩
      exact ⟨lists', hlists', .call hstep hrest⟩

def Still (w w' : Copying) : Prop := w'.1.lists = w.1.lists ∧ w'.2 = w.2

structure Appends (ref : Nat) (w w' : Copying) : Prop where
  others : ∀ i, i ≠ ref → w'.1.lists i = w.1.lists i
  grows : w.1.lists ref <+: w'.1.lists ref

instance : Std.Refl Still := ⟨fun _ => ⟨rfl, rfl⟩⟩

instance : IsTrans Copying Still := ⟨fun _ _ _ h h' => ⟨h'.1.trans h.1, h'.2.trans h.2⟩⟩

/-- No file has been copied twice, and each that has been is in the list. -/
structure Listed (ref : Nat) (w : Copying) : Prop where
  once : w.2.Nodup
  listed : w.2 ⊆ w.1.lists ref

section

variable {α β : Type} {umask ref : Nat} {w w' w'' : Copying}

theorem appends_trans (h : Appends ref w w') (h' : Appends ref w' w'') : Appends ref w w'' :=
  ⟨fun i hi => (h'.others i hi).trans (h.others i hi), h.grows.trans h'.grows⟩

theorem appends_still (h : Still w w') : Appends ref w w' :=
  ⟨fun i _ => by rw [h.1], by rw [h.1]⟩

theorem listed_still (h : Still w w') (hw : Listed ref w) : Listed ref w' :=
  ⟨by rw [h.2]; exact hw.once, by rw [h.1, h.2]; exact hw.listed⟩

/-- An exception that a handler sees leaves no copy without its entry in the list. -/
def Handles (umask ref : Nat) (p : Py α) (Q : α → Prop) (w : Copying) : Prop :=
  Holds (Disturbed umask (OwnList ref)) (UsesList ref) p
    (fun a w' => Appends ref w w' ∧ Listed ref w' ∧ Q a)
    (fun e w' => Appends ref w w' ∧ w'.2.Nodup ∧ (Caught e → Listed ref w')) w

abbrev Rests (umask ref : Nat) (p : Py α) (Q : α → Copying → Prop) (w : Copying) : Prop :=
  Along (Disturbed umask (OwnList ref)) (UsesList ref) Still p Q w

theorem handles_pure (a : α) {Q : α → Prop} (hw : Listed ref w) (ha : Q a) :
    Handles umask ref (pure a) Q w := ⟨appends_still ⟨rfl, rfl⟩, hw, ha⟩

theorem handles_raise (e : Exn) {Q : α → Prop} (hw : Listed ref w) :
    Handles umask ref (raise e) Q w := ⟨appends_still ⟨rfl, rfl⟩, hw.once, fun _ => hw⟩

/-- What goes on from a later state. -/
theorem handles_from {p : Py α} {Q : α → Prop} (hR : Appends ref w w')
    (h : Handles umask ref p Q w') :
    Holds (Disturbed umask (OwnList ref)) (UsesList ref) p
      (fun a w'' => Appends ref w w'' ∧ Listed ref w'' ∧ Q a)
      (fun e w'' => Appends ref w w'' ∧ w''.2.Nodup ∧ (Caught e → Listed ref w'')) w' := by
  apply holds_mono h
  · exact fun a w'' ha => ⟨appends_trans hR ha.1, ha.2⟩
  · exact fun e w'' he => ⟨appends_trans hR he.1, he.2⟩

theorem handles_bind {p : Py α} {f : α → Py β} {Q : α → Prop} {Q' : β → Prop}
    (hp : Handles umask ref p Q w)
    (hf : ∀ a w', Listed ref w' → Q a → Handles umask ref (f a) Q' w') :
    Handles umask ref (p >>= f) Q' w := by
  apply holds_bind
  apply holds_mono hp
  · exact fun a w₁ ha => handles_from ha.1 (hf a w₁ ha.2.1 ha.2.2)
  · exact fun e w₁ he => he

/-- What only looks or makes way comes before the rest. -/
theorem handles_after {p : Py α} {f : α → Py β} {Q : α → Copying → Prop} {Q' : β → Prop}
    (hw : Listed ref w) (hp : Rests umask ref p Q w)
    (hf : ∀ a w', Still w w' → Q a w' → Handles umask ref (f a) Q' w') :
    Handles umask ref (p >>= f) Q' w := by
  apply holds_bind
  apply holds_mono hp
  · exact fun a w₁ ha => handles_from (appends_still ha.1) (hf a w₁ ha.1 ha.2)
  · intro e w₁ hs
    have hw₁ := listed_still hs hw
    exact ⟨appends_still hs, hw₁.once, fun _ => hw₁⟩

theorem handles_exceptOs {p : Py α} {handler : Exn → Py α} {Q : α → Prop}
    (hp : Handles umask ref p Q w)
    (hh : ∀ e w', Listed ref w' → Handles umask ref (handler e) Q w') :
    Handles umask ref (exceptOs p handler) Q w := by
  apply holds_bind
  apply holds_attempt
  apply holds_mono hp
  · exact fun a w' ha => ha
  · intro e w' he
    cases e with
    | osError _ | osErrorText => exact handles_from he.1 (hh _ w' (he.2.2 trivial))
    | outsideJail | valueError | nameError | typeError | indexError | unboundLocal
    | memoryError | recursionError => exact he

theorem usesList_unlisted {c : Call} (h : Unlisted c) : UsesList ref w c := by
  cases c with
  | listContains _ _ | listAppend _ _ => exact h.elim
  | _ => trivial

theorem still_step {c : Call} {r : Res c} (hc : Unlisted c)
    (h : Disturbed umask (OwnList ref) w c r w') : Still w w' := by
  obtain ⟨s, hs, hposix, hlog, -⟩ := h
  refine ⟨?_, ?_⟩
  · rw [← hs]
    refine (posix_lists (fun i x => ⟨fun heq => ?_, fun heq => ?_⟩) hposix s.lists).1
    · rw [heq] at hc
      exact hc
    · rw [heq] at hc
      exact hc
  · rw [hlog]
    cases c with
    | link _ _ | copyfile _ _ => exact hc.elim
    | _ => rfl

theorem rests_only {p : Py α} (hp : Prog.Only Unlisted p) :
    Rests umask ref p (fun _ _ => True) w :=
  along_of_only hp (fun _ _ _ _ hc hM => still_step hc hM) (fun _ _ hc => usesList_unlisted hc) w

theorem unlisted_of_makesWay {c : Call} (h : MakesWay c) : Unlisted c := by
  cases c with
  | mkdir _ _ | symlink _ _ | mknod _ _ _ _ | stat _ | utime _ _ _ | chown _ _ _ | chmod _ _
  | cacheGet _ _ | cacheSet _ _ | lstat _ _ | «exists» _ | readlink _ _ => trivial
  | _ => exact h.elim

theorem rests_makesWay {p : Py α} (hp : Prog.Only MakesWay p) :
    Rests umask ref p (fun _ _ => True) w :=
  rests_only (Prog.only_mono hp fun _ => unlisted_of_makesWay)

theorem cachedlstat_makesWay (use : Use) (path : Text) :
    Prog.Only MakesWay (cachedlstat use path) :=
  cachedlstat_only trivial trivial fun _ => trivial

theorem readlink_own (file : Text) :
    Rests umask ref (readlink .source file) (fun _ _ => ref = 0) w := by
  refine ⟨trivial, fun r w' hM => ?_⟩
  have hstill : Still w w' := still_step (c := .readlink .source file) trivial hM
  obtain ⟨s, -, -, -, hown⟩ := hM
  cases r with
  | ok target => exact ⟨hstill, hown⟩
  | error e => exact hstill

theorem listdir_own (dir : Text) : Rests umask ref (listdir dir) (fun _ _ => ref = 0) w := by
  refine ⟨trivial, fun r w' hM => ?_⟩
  have hstill : Still w w' := still_step (c := .listdir dir) trivial hM
  obtain ⟨s, -, -, -, hown⟩ := hM
  cases r with
  | ok entries => exact ⟨hstill, hown⟩
  | error e => exact hstill

theorem listContains_own (x : Text) :
    Rests umask ref (listContains ref x) (fun found w' => found = false → x ∉ w'.1.lists ref)
      w := by
  refine ⟨rfl, fun r w' hM => ?_⟩
  obtain ⟨s, hs, ⟨hr, heq⟩, hlog, -⟩ := hM
  refine ⟨⟨by rw [heq, hs], hlog⟩, fun hfound hmem => ?_⟩
  rw [heq] at hmem
  have hcontains : (s.lists ref).contains x = true := List.contains_iff_mem.mpr hmem
  rw [← hr] at hcontains
  have hr' : r = false := hfound
  rw [hr'] at hcontains
  cases hcontains

theorem listAppend_step {x : Text} {r : Unit}
    (h : Disturbed umask (OwnList ref) w (.listAppend ref x) r w') :
    (∀ i, i ≠ ref → w'.1.lists i = w.1.lists i) ∧
      w'.1.lists ref = w.1.lists ref ++ [x] ∧ w'.2 = w.2 := by
  obtain ⟨s, hs, heq, hlog, -⟩ := h
  have hlists : w'.1.lists = fun i => if i = ref then w.1.lists i ++ [x] else w.1.lists i := by
    rw [show w'.1 = _ from heq, ← hs]
  rw [hlists]
  exact ⟨fun i hi => if_neg hi, if_pos rfl, hlog⟩

theorem listAppend_handles (x : Text) (hw : Listed ref w) :
    Handles umask ref (listAppend ref x) (fun _ => True) w := by
  refine ⟨rfl, fun r w' hM => ?_⟩
  obtain ⟨hothers, happended, hlog⟩ := listAppend_step hM
  have hprefix : w.1.lists ref <+: w'.1.lists ref := ⟨[x], happended.symm⟩
  refine ⟨⟨hothers, hprefix⟩, ⟨by rw [hlog]; exact hw.once, ?_⟩, trivial⟩
  rw [hlog]
  exact fun y hy => hprefix.subset (hw.listed hy)

section

variable {file dst : Text}

/-- A copy adds the file to the log, and nothing is done with the lists. -/
def CopiesFile (file : Text) (w w' : Copying) : Prop :=
  w'.1.lists = w.1.lists ∧ (w'.2 = w.2 ∨ w'.2 = w.2 ++ [file])

theorem copiesFile_after (h : CopiesFile file w w') (hs : Still w' w'') :
    CopiesFile file w w'' := by
  refine ⟨hs.1.trans h.1, ?_⟩
  rw [hs.2]
  exact h.2

theorem copies_step {c : Call} {r : Res c} (hc : c = .link file dst ∨ c = .copyfile file dst)
    (h : Disturbed umask (OwnList ref) w c r w') : CopiesFile file w w' := by
  obtain ⟨s, hs, hposix, hlog, -⟩ := h
  obtain rfl | rfl := hc
  · refine ⟨(posix_lists (by simp) hposix s.lists).1.trans hs, ?_⟩
    cases r with
    | ok u => exact Or.inr hlog
    | error e => exact Or.inl hlog
  · exact ⟨(posix_lists (by simp) hposix s.lists).1.trans hs, Or.inr hlog⟩

theorem tryLink_copies (try_hardlink : Bool) (w : Copying) :
    Holds (Disturbed umask (OwnList ref)) (UsesList ref) (tryLink try_hardlink file dst)
      (fun again w' => if again then Still w w' else CopiesFile file w w') (fun _ _ => False)
      w := by
  cases try_hardlink with
  | false => exact ⟨rfl, rfl⟩
  | true =>
      apply holds_bind
      apply holds_attempt
      refine ⟨trivial, fun r w' hM => ?_⟩
      cases r with
      | ok u => exact copies_step (Or.inl rfl) hM
      | error e =>
          obtain ⟨s, hs, ⟨-, heq⟩, hlog, -⟩ := hM
          exact ⟨by rw [heq, hs], hlog⟩

/-- An error of the copy is caught, and one that cannot be taken apart is raised anew. -/
theorem copyWithPermissions_copies (try_hardlink allow_suid retain_owner : Bool) (w : Copying) :
    Holds (Disturbed umask (OwnList ref)) (UsesList ref)
      (copyWithPermissions file dst try_hardlink allow_suid retain_owner)
      (fun _ w' => CopiesFile file w w') (fun e w' => CopiesFile file w w' ∧ ¬ Caught e) w := by
  have hcopy : ∀ w₁, Still w w₁ → Holds (Disturbed umask (OwnList ref)) (UsesList ref) (do
      copyfile file dst
      copyTimeAndPermissions file dst allow_suid retain_owner)
      (fun _ w' => CopiesFile file w w') (fun _ w' => CopiesFile file w w') w₁ := by
    intro w₁ hs
    apply holds_bind
    refine ⟨trivial, fun r w₂ hM => ?_⟩
    have hstep : CopiesFile file w w₂ := by
      have h := copies_step (w := w₁) (c := .copyfile file dst) (Or.inr rfl) hM
      exact ⟨h.1.trans hs.1, by rw [← hs.2]; exact h.2⟩
    cases r with
    | error e => exact hstep
    | ok u =>
        have htouch : Rests umask ref
            (copyTimeAndPermissions file dst allow_suid retain_owner) (fun _ _ => True) w₂ :=
          rests_makesWay (copyTimeAndPermissions_makesWay file dst allow_suid retain_owner)
        apply holds_mono htouch
        · exact fun _ w₃ h => copiesFile_after hstep h.1
        · exact fun _ w₃ h => copiesFile_after hstep h
  apply holds_bind
  apply holds_mono (tryLink_copies try_hardlink w)
  · intro again w₁ hw₁
    cases again with
    | false => exact hw₁
    | true =>
        apply holds_bind
        apply holds_attempt
        apply holds_mono (hcopy w₁ hw₁)
        · exact fun _ w₂ h => h
        · intro e w₂ h
          cases e with
          | osError errno => exact h
          | osErrorText | outsideJail | valueError | nameError | typeError | indexError
          | unboundLocal | memoryError | recursionError => exact ⟨h, id⟩
  · exact fun _ _ h => h.elim

theorem copyRegular_handles (try_hardlink allow_suid retain_owner : Bool) (hw : Listed ref w)
    (hnew : file ∉ w.1.lists ref) :
    Handles umask ref (do
      copyWithPermissions file dst try_hardlink allow_suid retain_owner
      listAppend ref file
      pure ref) (fun r => r = ref) w := by
  have honce : ∀ w', CopiesFile file w w' → w'.2.Nodup := by
    intro w' h
    obtain hlog | hlog := h.2
    · rw [hlog]
      exact hw.once
    · rw [hlog, List.nodup_append]
      refine ⟨hw.once, by simp, fun x hx y hy heq => hnew ?_⟩
      rw [List.mem_singleton] at hy
      rw [← hy, ← heq]
      exact hw.listed hx
  apply holds_bind
  apply holds_mono (copyWithPermissions_copies try_hardlink allow_suid retain_owner w)
  · intro _ w₁ hw₁
    apply holds_bind
    refine ⟨rfl, fun r w₂ hM => ?_⟩
    obtain ⟨hothers, happended, hlog⟩ := listAppend_step hM
    rw [hw₁.1] at happended
    refine ⟨⟨fun i hi => ?_, ⟨[file], happended.symm⟩⟩, ⟨?_, ?_⟩, rfl⟩
    · rw [hothers i hi, hw₁.1]
    · rw [hlog]
      exact honce w₁ hw₁
    · rw [hlog, happended]
      intro x hx
      obtain hsame | hadded := hw₁.2
      · rw [hsame] at hx
        exact List.mem_append_left _ (hw.listed hx)
      · rw [hadded] at hx
        exact (List.mem_append.mp hx).elim (fun h => List.mem_append_left _ (hw.listed h))
          fun h => List.mem_append_right _ h
  · intro e w₁ he
    have happends : Appends ref w w₁ := ⟨fun i _ => by rw [he.1.1], by rw [he.1.1]⟩
    exact ⟨happends, honce w₁ he.1, fun hcaught => absurd hcaught he.2⟩

end

theorem deleteDest_unlisted (o : CopyOptions) (chrootsb : Option StatBuf) (chrootrfile : Text) :
    Prog.Only Unlisted (deleteDest o chrootsb chrootrfile) := by
  cases chrootsb with
  | none => exact trivial
  | some chrootsb =>
      rw [deleteDest]
      split
      · exact only_exceptOs ⟨trivial, fun _ => trivial⟩ fun _ => trivial
      · exact trivial

/-- What a recursive call is relied on for. -/
def HandlesAll (umask ref : Nat) (copyFiles : CopyFiles) : Prop :=
  ∀ files o try_glob_matching w, Listed ref w →
    Handles umask ref (copyFiles files o try_glob_matching ref) (fun r => r = ref) w

section

variable {copyFiles : CopyFiles} (hcopy : HandlesAll umask ref copyFiles)

theorem copyEntries_handles {recur : Text → Nat → Py Nat}
    (hrecur : ∀ dir w, Listed ref w → Handles umask ref (recur dir ref) (fun r => r = ref) w)
    (fuel : Nat) (chroot dir : Text) (o : CopyOptions) (entries files2 : List Text) (w : Copying)
    (hw : Listed ref w) :
    Handles umask ref (copyEntries recur fuel chroot dir o entries files2 ref)
      (fun acc => acc.2 = ref) w := by
  induction entries generalizing files2 w with
  | nil => exact handles_pure _ hw rfl
  | cons entry entries ih =>
      rw [copyEntries]
      apply handles_bind (Q := fun acc => acc.2 = ref)
      · apply handles_exceptOs
        · apply handles_after hw (rests_makesWay (cachedlstat_makesWay _ _))
          intro sbuf w₁ hs₁ _
          have hw₁ := listed_still hs₁ hw
          split
          · apply handles_after hw₁ (rests_makesWay (createParentPath_makesWay _ _ _ _))
            intro _ w₂ hs₂ _
            have hw₂ := listed_still hs₂ hw₁
            apply handles_bind (hrecur (osPathJoin dir entry) w₂ hw₂)
            exact fun _ _ hw₃ hr => handles_pure _ hw₃ hr
          · exact handles_pure _ hw₁ rfl
        · intro e w₁ hw₁
          split
          · exact handles_raise _ hw₁
          · exact handles_pure _ hw₁ rfl
      · intro acc w₁ hw₁ hacc
        obtain ⟨files2', ref'⟩ := acc
        cases hacc
        exact ih files2' w₁ hw₁

include hcopy

/-- The files of a directory are checked against the default list. -/
theorem copyDirRecursive_handles (fuel n : Nat) (chroot dir : Text) (o : CopyOptions)
    (w : Copying) (hw : Listed ref w) :
    Handles umask ref (copyDirRecursive copyFiles fuel chroot o n dir ref) (fun r => r = ref)
      w := by
  induction n generalizing dir w with
  | zero => exact handles_raise _ hw
  | succ n ih =>
      rw [copyDirRecursive]
      apply handles_after hw (listdir_own dir)
      intro entries w₁ hs₁ hdefault
      have hw₁ := listed_still hs₁ hw
      apply handles_bind (copyEntries_handles ih fuel chroot dir o entries [] w₁ hw₁)
      intro acc w₂ hw₂ _
      dsimp only
      subst hdefault
      exact hcopy acc.1 o false w₂ hw₂

theorem copySymlink_handles (o : CopyOptions) (file chrootrfile : Text) (w : Copying)
    (hw : Listed ref w) :
    Handles umask ref (copySymlink copyFiles o file chrootrfile ref) (fun r => r = ref) w := by
  apply handles_after hw (readlink_own file)
  intro realfile w₁ hs₁ hdefault
  have hw₁ := listed_still hs₁ hw
  have hlink : Prog.Only Unlisted (exceptOs (symlink realfile chrootrfile) fun _ => pure ()) :=
    only_exceptOs ⟨trivial, fun _ => trivial⟩ fun _ => trivial
  apply handles_after hw₁ (rests_only hlink)
  intro _ w₂ hs₂ _
  apply handles_bind (listAppend_handles file (listed_still hs₂ hw₁))
  intro _ w₃ hw₃ _
  subst hdefault
  cases realfile with
  | nil => exact handles_raise _ hw₃
  | cons c realfile =>
      dsimp only
      split
      · exact hcopy _ o false w₃ hw₃
      · exact hcopy _ o false w₃ hw₃

theorem copyByFormat_handles (fuel : Nat) (chroot : Text) (o : CopyOptions)
    (file chrootrfile : Text) (sb : StatBuf) (w : Copying) (hw : Listed ref w)
    (hnew : file ∉ w.1.lists ref) :
    Handles umask ref (copyByFormat copyFiles fuel chroot o file chrootrfile sb ref)
      (fun r => r = ref) w := by
  have hdevice : Handles umask ref (do
      copyDevice fuel chroot file o.retain_owner
      pure ref) (fun r => r = ref) w := by
    apply handles_after hw (rests_makesWay (copyDevice_makesWay fuel chroot file o.retain_owner))
    exact fun _ _ hs _ => handles_pure ref (listed_still hs hw) rfl
  rw [copyByFormat]
  split
  · exact copySymlink_handles hcopy o file chrootrfile w hw
  · exact copyDirRecursive_handles hcopy fuel fuel chroot file o w hw
  · exact copyRegular_handles _ _ _ hw hnew
  · exact hdevice
  · exact hdevice
  · exact handles_pure ref hw rfl

theorem copyLibs_handles (o : CopyOptions) (file : Text) (sb : StatBuf) (w : Copying)
    (hw : Listed ref w) :
    Handles umask ref (copyLibs copyFiles o file sb ref) (fun r => r = ref) w := by
  rw [copyLibs]
  split
  · have hlibs : Prog.Only Unlisted (lddlistLibraries file) := ⟨trivial, fun _ => trivial⟩
    apply handles_after hw (rests_only hlibs)
    exact fun libs w₁ hs₁ _ => hcopy libs _ false w₁ (listed_still hs₁ hw)
  · exact handles_pure ref hw rfl

theorem copyMatching_handles (o : CopyOptions) (try_glob_matching : Bool) (file : Text)
    (errno : Nat) (w : Copying) (hw : Listed ref w) :
    Handles umask ref (copyMatching copyFiles o try_glob_matching file errno ref)
      (fun r => r = ref) w := by
  rw [copyMatching]
  split
  · have hglob : Prog.Only Unlisted (glob file) := ⟨trivial, fun _ => trivial⟩
    apply handles_after hw (rests_only hglob)
    intro ret w₁ hs₁ _
    have hw₁ := listed_still hs₁ hw
    split
    · exact hcopy ret _ false w₁ hw₁
    · exact handles_pure ref hw₁ rfl
  · exact handles_pure ref hw rfl

theorem copyFound_handles (fuel : Nat) (chroot : Text) (o : CopyOptions) (file : Text)
    (sb : StatBuf) (dest : Dest) (w : Copying) (hw : Listed ref w) (hnew : file ∉ w.1.lists ref) :
    Handles umask ref (copyFound copyFiles fuel chroot o file sb dest ref)
      (fun acc => acc.2 = ref) w := by
  rw [copyFound]
  apply handles_after hw (rests_makesWay (createParentPath_makesWay _ _ _ _))
  intro _ w₁ hs₁ _
  have hresolve : Prog.Only MakesWay
      (resolveRealpath (normpath (chroot ++ '/' :: file)) chroot false) :=
    Prog.only_mono (resolveRealpath_findsWay _ _ _) fun _ => makesWay_of_findsWay
  have hw₁ := listed_still hs₁ hw
  apply handles_after hw₁ (rests_makesWay hresolve)
  intro chrootrfile w₂ hs₂ _
  have hw₂ := listed_still hs₂ hw₁
  apply handles_after hw₂ (rests_makesWay (lookAtDest_only dest trivial trivial fun _ => trivial))
  intro dest' w₃ hs₃ _
  have hw₃ := listed_still hs₃ hw₂
  cases dest' with
  | none => exact handles_raise _ hw₃
  | some chrootsb =>
      dsimp only
      split
      · exact handles_pure _ hw₃ rfl
      · apply handles_after hw₃ (rests_only (deleteDest_unlisted o chrootsb chrootrfile))
        intro _ w₄ hs₄ _
        have hw₄ := listed_still hs₄ hw₃
        apply handles_after hw₄ (rests_makesWay (createParentPath_makesWay _ _ _ _))
        intro _ w₅ hs₅ _
        have hw₅ := listed_still hs₅ hw₄
        have hnew₅ : file ∉ w₅.1.lists ref := by
          rwa [hs₅.1, hs₄.1, hs₃.1, hs₂.1, hs₁.1]
        apply handles_bind
          (copyByFormat_handles hcopy fuel chroot o file chrootrfile sb w₅ hw₅ hnew₅)
        intro r w₆ hw₆ hr
        rw [hr]
        apply handles_bind (copyLibs_handles hcopy o file sb w₆ hw₆)
        exact fun _ _ hw₇ hr' => handles_pure _ hw₇ hr'

theorem copyOne_handles (fuel : Nat) (chroot : Text) (o : CopyOptions) (try_glob_matching : Bool)
    (file : Text) (dest : Dest) (w : Copying) (hw : Listed ref w) :
    Handles umask ref (copyOne copyFiles fuel chroot o try_glob_matching file dest ref)
      (fun acc => acc.2 = ref) w := by
  rw [copyOne]
  apply handles_after hw (listContains_own file)
  intro found w₁ hs₁ hnew
  have hw₁ := listed_still hs₁ hw
  split
  · exact handles_pure _ hw₁ rfl
  next hfound =>
    have hnew₁ := hnew ((Bool.not_eq_true _).mp hfound)
    have hlook : Rests umask ref (attempt (cachedlstat .source file)) (fun _ _ => True) w₁ :=
      rests_makesWay (only_attempt (cachedlstat_makesWay .source file))
    apply handles_after hw₁ hlook
    intro r w₂ hs₂ _
    have hw₂ := listed_still hs₂ hw₁
    cases r with
    | ok sb =>
        refine copyFound_handles hcopy fuel chroot o file sb dest w₂ hw₂ ?_
        rwa [hs₂.1]
    | error e =>
        cases e with
        | osError errno =>
            apply handles_bind
              (copyMatching_handles hcopy o try_glob_matching file errno w₂ hw₂)
            exact fun _ _ hw₃ hr => handles_pure _ hw₃ hr
        | osErrorText | outsideJail | valueError | nameError | typeError | indexError
        | unboundLocal | memoryError | recursionError => exact handles_raise _ hw₂

theorem copyLoop_handles (fuel : Nat) (chroot : Text) (o : CopyOptions) (try_glob_matching : Bool)
    (binarieslist : List Text) (dest : Dest) (w : Copying) (hw : Listed ref w) :
    Handles umask ref
      (copyLoop copyFiles fuel chroot o try_glob_matching binarieslist dest ref)
      (fun r => r = ref) w := by
  induction binarieslist generalizing dest w with
  | nil => exact handles_pure ref hw rfl
  | cons file binarieslist ih =>
      rw [copyLoop]
      apply handles_bind (copyOne_handles hcopy fuel chroot o try_glob_matching file dest w hw)
      intro acc w₁ hw₁ hacc
      obtain ⟨dest', ref'⟩ := acc
      cases hacc
      exact ih dest' w₁ hw₁

end

/-- The list that is returned is the one that was passed. -/
theorem copyBinariesAndLibs_handles (fuel : Nat) (chroot : Text) :
    HandlesAll umask ref (copyBinariesAndLibs fuel chroot) := by
  induction fuel generalizing chroot with
  | zero => exact fun _ _ _ _ hw => handles_raise _ hw
  | succ n ih =>
      intro files o try_glob_matching w hw
      rw [copyBinariesAndLibs]
      split
      · exact handles_raise _ hw
      · exact copyLoop_handles (ih _) n _ o try_glob_matching files none w hw

theorem listed_start (s : World) : Listed ref (s, []) := ⟨List.nodup_nil, nofun⟩

theorem growsList_of_handles {p : Py Nat} {s : World}
    (h : Handles umask ref p (fun r => r = ref) (s, [])) :
    GrowsList umask (OwnList ref) ref p s := by
  intro r w' hrun
  have hend := Prog.result_of_returns h
    (Prog.returns_mono (fun _ _ _ _ => disturbed_of_logged) hrun)
  obtain ⟨happends, hlisted, hr⟩ := hend
  rw [hr]
  exact ⟨happends.grows.subset, hlisted.listed⟩

theorem copiesOnce_of_handles {p : Py Nat} {Q : Nat → Prop} {s : World}
    (h : Handles umask ref p Q (s, [])) : CopiesOnce umask (OwnList ref) p s := by
  intro r w' hrun
  have hend := Prog.result_of_returns h hrun
  cases r with
  | ok r => exact hend.2.1.once
  | error e => exact hend.2.1

theorem ignoresLists_of_handles {p : Py Nat} {Q : Nat → Prop} {s : World}
    (h : Handles umask ref p Q (s, [])) : IgnoresLists umask (OwnList ref) ref p s := by
  intro lists r w' hlists hrun
  have hundisturbed : Prog.Always (Logged umask (OwnList ref)) (UsesList ref) p _ (s, []) :=
    Prog.always_of_more (fun _ _ _ _ => disturbed_of_logged) h
  exact returns_withLists hundisturbed hrun hlists

end

end Jailkit.Tools
