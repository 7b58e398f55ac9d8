import Jailkit.Tools.Copy
import Jailkit.Tools.Execute

/-!
The setuid and setgid bits of what `copy_binaries_and_libs` makes. A copy loses them, and so
does a directory with the permissions it is given; a hard link has those of its source.
-/
namespace Jailkit.Tools

open Raising Fs

def NoBits (mode : Nat) : Prop := mode &&& (S_ISUID ||| S_ISGID) = 0

def CleanInode (i : Inode) : Prop := i.kind = .reg → NoBits i.attrs.mode

/-- Neither bit is set on a directory or regular file at this location. -/
def CleanAt (fs : Fs) (x : Loc) : Prop :=
  match fs.entry x with
  | some .dir => NoBits (fs.dirAttrs x).mode
  | some (.file ino) => CleanInode (fs.inode ino)
  | _ => True

/-- Each call that makes a hard link makes one of a file without the bits. -/
def LinksClean (s : World) : (c : Call) → Res c → Prop
  | .link src _, .ok _ =>
      ∀ ino, s.fs.lookup false src = some (.file ino) → CleanInode (s.fs.inode ino)
  | _, _ => True

/-- The locations at which something has been made. -/
def noteNew (s s' : World) (made : Loc → Prop) : Loc → Prop :=
  fun x => made x ∨ s.fs.entry x = none ∧ (s'.fs.entry x).isSome

theorem noBits_lessBits (mode : Nat) : NoBits (lessBits mode (S_ISUID ||| S_ISGID)) := by
  rw [NoBits, lessBits, Nat.and_assoc,
    show (0o7777 ^^^ (S_ISUID ||| S_ISGID)) &&& (S_ISUID ||| S_ISGID) = 0 from by decide,
    Nat.and_zero]

theorem noBits_newFile (umask : Nat) {a : Attrs} (h : newFileAttrs umask a) : NoBits a.mode := by
  rw [newFileAttrs] at h
  rw [NoBits, h, lessBits, Nat.and_assoc, Nat.and_comm (0o7777 ^^^ umask), ← Nat.and_assoc,
    show 0o666 &&& (S_ISUID ||| S_ISGID) = 0 from by decide, Nat.zero_and]

/-- What was clean stays clean, and so does every location where nothing was. -/
def Careful (fs fs' : Fs) : Prop := ∀ x, CleanAt fs x → CleanAt fs' x

variable {fs fs' : Fs}

theorem careful_refl (fs : Fs) : Careful fs fs := fun _ h => h

theorem cleanAt_none {x : Loc} (h : fs.entry x = none) : CleanAt fs x := by
  rw [CleanAt, h]
  trivial

theorem careful_insert {loc : Loc} {e : Entry} (h : fs.entry loc = none)
    (he : CleanAt (fs.insert loc e) loc) : Careful fs (fs.insert loc e) := by
  intro x hx
  by_cases heq : x = loc
  · rw [heq]
    exact he
  · rw [CleanAt, (adds_insert h e).2.2, if_neg heq]
    exact hx

theorem careful_removeIf (p : Loc → Bool) : Careful fs (fs.removeIf p) := by
  intro x hx
  by_cases hroot : x = []
  · rw [hroot] at hx ⊢
    exact hx
  · rw [CleanAt, entry_removeIf fs p hroot]
    cases p x with
    | true => trivial
    | false => exact hx

theorem careful_setInode {ino : Nat} {i : Inode}
    (h : CleanInode (fs.inode ino) → CleanInode i) : Careful fs (fs.setInode ino i) := by
  intro x hx
  rw [CleanAt] at hx ⊢
  rw [show (fs.setInode ino i).entry x = fs.entry x from rfl]
  cases he : fs.entry x with
  | none => trivial
  | some e =>
      cases e with
      | symlink t => trivial
      | dir =>
          simp only [he] at hx
          exact hx
      | file n =>
          simp only [he] at hx
          simp only [setInode]
          split
          next hn => exact h (hn ▸ hx)
          next => exact hx

theorem careful_setDirAttrs {loc : Loc} {a : Attrs}
    (h : NoBits (fs.dirAttrs loc).mode → NoBits a.mode) : Careful fs (fs.setDirAttrs loc a) := by
  intro x hx
  rw [CleanAt] at hx ⊢
  rw [show (fs.setDirAttrs loc a).entry x = fs.entry x from rfl]
  cases he : fs.entry x with
  | none => trivial
  | some e =>
      cases e with
      | symlink t => trivial
      | file n =>
          simp only [he] at hx
          exact hx
      | dir =>
          simp only [he] at hx
          simp only [setDirAttrs]
          split
          next hn => exact h (hn ▸ hx)
          next => exact hx

theorem careful_setAttrs {path : Text} {f : Attrs → Attrs}
    (hf : ∀ a, NoBits a.mode → NoBits (f a).mode) (h : fs.setAttrs path f = some fs') :
    Careful fs fs' := by
  obtain ⟨loc, -, ⟨-, rfl⟩ | ⟨ino, -, rfl⟩⟩ := setAttrs_eq_some h
  · exact careful_setDirAttrs (hf _)
  · exact careful_setInode fun hclean hkind => hf _ (hclean hkind)

theorem careful_create {loc : Loc} {i : Inode} (h : fs.entry loc = none) (hi : CleanInode i) :
    Careful fs (fs.create loc i) := by
  intro x hx
  by_cases heq : x = loc
  · have hentry : (fs.create loc i).entry loc = some (.file fs.nextIno) := by
      rw [show (fs.create loc i).entry loc = (fs.insert loc (.file fs.nextIno)).entry loc from rfl,
        (adds_insert h _).2.2, if_pos rfl]
    rw [heq, CleanAt, hentry]
    simp only [create, setInode, if_true]
    exact hi
  · have hx' : CleanAt (fs.insert loc (.file fs.nextIno)) x := by
      rw [CleanAt, (adds_insert h _).2.2, if_neg heq]
      exact hx
    exact careful_setInode (fun _ => hi) x hx'

theorem careful_openWrite {path content : Text} {a : Attrs} (ha : NoBits a.mode)
    (h : fs.openWrite path a content = some fs') : Careful fs fs' := by
  obtain ⟨loc, -, ⟨hnone, rfl⟩ | ⟨ino, -, rfl⟩⟩ := openWrite_eq_some h
  · exact careful_create hnone fun _ => ha
  · exact careful_setInode fun hclean => hclean

theorem careful_symlink {target path : Text} (h : fs.symlink target path = some fs') :
    Careful fs fs' := by
  obtain ⟨loc, hplace, rfl⟩ := symlink_eq_some h
  have hnone := (place_eq_some.mp hplace).2
  apply careful_insert hnone
  rw [CleanAt, (adds_insert hnone _).2.2, if_pos rfl]
  trivial

theorem careful_link {src dst : Text}
    (hsrc : ∀ ino, fs.lookup false src = some (.file ino) → CleanInode (fs.inode ino))
    (h : fs.link src dst = some fs') : Careful fs fs' := by
  obtain ⟨loc, e, hplace, hlookup, hne, rfl⟩ := link_eq_some h
  have hnone := (place_eq_some.mp hplace).2
  apply careful_insert hnone
  rw [CleanAt, (adds_insert hnone _).2.2, if_pos rfl]
  cases e with
  | dir => exact absurd rfl hne
  | symlink t => trivial
  | file ino => exact hsrc ino hlookup

theorem careful_unlink {path : Text} (h : fs.unlink path = some fs') : Careful fs fs' := by
  rw [Fs.unlink] at h
  split at h
  · cases h
  · split at h
    · cases h
    · cases h
    · cases h
      exact careful_removeIf _

/-- Calls that leave no bits on what they make; a directory can take over its parent's. -/
def Quiet : Call → Prop
  | .mkdir _ _ | .rmtree _ => False
  | .chmod _ mode => NoBits mode
  | _ => True

theorem careful_of_posix {umask : Nat} {s s' : World} {c : Call} {r : Res c}
    (h : posixWhere umask LinksClean s c r s') (hc : Quiet c) : Careful s.fs s'.fs := by
  obtain ⟨hposix, hlink⟩ := h
  cases posix_does hposix with
  | inl hsame =>
      rw [hsame]
      exact careful_refl s.fs
  | inr hdoes =>
      cases c with
      | symlink target path => exact careful_symlink hdoes
      | link src dst =>
          cases r with
          | ok u => exact careful_link hlink hdoes
          | error e =>
              rw [hposix.2]
              exact careful_refl s.fs
      | copyfile _ _ | writeFile _ _ _ =>
          obtain ⟨_, _, ha, hopen⟩ := hdoes
          exact careful_openWrite (noBits_newFile umask ha) hopen
      | utime path atime mtime => exact careful_setAttrs (fun a ha => by exact ha) hdoes
      | chmod path mode => exact careful_setAttrs (fun a _ => by exact hc) hdoes
      | chown path uid gid =>
          obtain ⟨keep, hset⟩ := hdoes
          apply careful_setAttrs _ hset
          intro a ha
          cases keep with
          | true => exact ha
          | false => exact noBits_lessBits a.mode
      | unlink path => exact careful_unlink hdoes
      | mknod path kind major minor =>
          obtain ⟨a, ha, hmk⟩ := hdoes
          obtain ⟨loc, hplace, hfs'⟩ := mknod_eq_some hmk
          rw [hfs']
          exact careful_create (place_eq_some.mp hplace).2 fun _ => noBits_newFile umask ha
      | mkdir _ _ | rmtree _ => exact hc.elim
      | _ => exact hdoes.elim

/-- What has been made so far is clean. -/
def Tidy (w : World × (Loc → Prop)) : Prop := ∀ x, w.2 x → CleanAt w.1.fs x

abbrev Noted (umask : Nat) : Prog.Machine Call Res (World × (Loc → Prop)) :=
  Prog.noting (posixWhere umask LinksClean) noteNew

variable {umask : Nat} {w w' : World × (Loc → Prop)} {α β : Type}

theorem tidy_step {c : Call} {r : Res c} (h : Noted umask w c r w') (hc : Quiet c)
    (hw : Tidy w) : Tidy w' := by
  have hcare := careful_of_posix h.1 hc
  intro x hx
  rw [h.2] at hx
  apply hcare
  cases hx with
  | inl hmade => exact hw x hmade
  | inr hnew => exact cleanAt_none hnew.1

/-- An exception that a handler for `OSError` sees. -/
def Caught : Exn → Prop
  | .osError _ | .osErrorText => True
  | _ => False

/-- A run of `p` ends tidy, unless it is ended by an exception that no handler sees. -/
def StaysTidy (umask : Nat) (p : Py α) : Prop :=
  ∀ w, Tidy w → Holds (Noted umask) (fun _ _ => True) p (fun _ w' => Tidy w')
    (fun e w' => Caught e → Tidy w') w

theorem tidy_pure (a : α) : StaysTidy umask (pure a) := fun _ hw => hw

theorem tidy_raise (e : Exn) : StaysTidy umask (raise e : Py α) := fun _ hw _ => hw

theorem tidy_bind {p : Py α} {f : α → Py β} (hp : StaysTidy umask p)
    (hf : ∀ a, StaysTidy umask (f a)) : StaysTidy umask (p >>= f) := by
  intro w hw
  apply holds_bind
  exact holds_mono (hp w hw) (fun a w' hw' => hf a w' hw') fun _ _ h => h

/-- A program of quiet calls ends tidy, whatever ends it. -/
theorem quiet_holds {p : Py α} (hp : Prog.Only Quiet p) (hw : Tidy w) :
    Holds (Noted umask) (fun _ _ => True) p (fun _ w' => Tidy w') (fun _ w' => Tidy w') w := by
  apply holds_of_only hp
  · exact fun _ _ _ _ hc hw h => tidy_step h hc hw
  · exact fun _ _ _ _ => trivial
  · exact hw

theorem tidy_quiet {p : Py α} (hp : Prog.Only Quiet p) : StaysTidy umask p :=
  fun _ hw => holds_mono (quiet_holds hp hw) (fun _ _ h => h) fun _ _ h _ => h

theorem tidy_exceptOs {p : Py α} {handler : Exn → Py α} (hp : StaysTidy umask p)
    (hh : ∀ e, StaysTidy umask (handler e)) : StaysTidy umask (exceptOs p handler) := by
  intro w hw
  apply holds_bind
  apply holds_attempt
  apply holds_mono (hp w hw)
  · exact fun a w' hw' => hw'
  · intro e w' he
    cases e with
    | osError errno => exact hh _ w' (he trivial)
    | osErrorText => exact hh _ w' (he trivial)
    | outsideJail | valueError | nameError | typeError | indexError | unboundLocal
    | memoryError | recursionError => exact he

theorem tidy_catchOs {p handler : Py α} (hp : StaysTidy umask p)
    (hh : StaysTidy umask handler) : StaysTidy umask (catchOs p handler) := by
  intro w hw
  apply holds_bind
  apply holds_attempt
  apply holds_mono (hp w hw)
  · exact fun a w' hw' => hw'
  · intro e w' he
    cases e with
    | osError errno => exact hh w' (he trivial)
    | osErrorText => exact fun _ => he trivial
    | outsideJail | valueError | nameError | typeError | indexError | unboundLocal
    | memoryError | recursionError => exact he

theorem quiet_of_looks {c : Call} (h : Looks c) : Quiet c := by
  cases c with
  | cacheGet _ _ | cacheSet _ _ | listContains _ _ | listAppend _ _ | lstat _ _ | stat _
  | «exists» _ | islink _ | readlink _ _ | listdir _ | scandir _ | glob _
  | lddlistLibraries _ | lstatSize _ | openRead _ => exact trivial
  | _ => exact h.elim

theorem tidy_looks {p : Py α} (hp : Prog.Only Looks p) : StaysTidy umask p :=
  tidy_quiet (Prog.only_mono hp fun _ h => quiet_of_looks h)

theorem copyTimeAndPermissions_quiet (src dst : Text) (copy_ownership : Bool) :
    Prog.Only Quiet (copyTimeAndPermissions src dst false copy_ownership) := by
  refine only_bind ⟨trivial, fun _ => trivial⟩ fun sbuf => ?_
  refine only_bind ⟨trivial, fun _ => trivial⟩ fun _ => ?_
  refine only_bind ?_ fun _ => ⟨noBits_lessBits _, fun _ => trivial⟩
  cases copy_ownership with
  | true => exact ⟨trivial, fun _ => trivial⟩
  | false => exact trivial

theorem copyWithPermissions_tidy (src dst : Text) (try_hardlink retain_owner : Bool) :
    StaysTidy umask (copyWithPermissions src dst try_hardlink false retain_owner) := by
  have hlink : Prog.Only Quiet (tryLink try_hardlink src dst) := by
    cases try_hardlink with
    | false => exact trivial
    | true =>
        refine only_bind (only_attempt ⟨trivial, fun _ => trivial⟩) fun r => ?_
        cases r with
        | ok u => exact trivial
        | error e => exact trivial
  apply tidy_bind (tidy_quiet hlink)
  intro do_normal_copy
  cases do_normal_copy with
  | false => exact tidy_pure ()
  | true =>
      apply tidy_catchOs _ (tidy_pure ())
      apply tidy_quiet
      exact only_bind ⟨trivial, fun _ => trivial⟩ fun _ => copyTimeAndPermissions_quiet _ _ _

theorem makeDevice_quiet (sb : StatBuf) (path chrootpath : Text) (retain_owner : Bool) :
    Prog.Only Quiet (makeDevice sb path chrootpath retain_owner) := by
  rw [makeDevice]
  split
  · exact only_bind ⟨trivial, fun _ => trivial⟩ fun _ => copyTimeAndPermissions_quiet _ _ _
  · exact only_bind ⟨trivial, fun _ => trivial⟩ fun _ => copyTimeAndPermissions_quiet _ _ _
  · exact trivial

/-- A directory has been made at `x`, and all else that has been made is clean. -/
structure MadeDir (fs : Fs) (path : Text) (x : Loc) (w : World × (Loc → Prop)) : Prop where
  located : fs.locate false (dirPath path) = some x
  adds : Adds fs w.1.fs x .dir
  tidy : ∀ y, y ≠ x → w.2 y → CleanAt w.1.fs y

theorem madeDir_mkdir {path : Text} {mode : Nat} {u : Unit} (hw : Tidy w)
    (h : Noted umask w (.mkdir path mode) (.ok u) w') : ∃ x, MadeDir w.1.fs path x w' := by
  obtain ⟨⟨⟨fs', ⟨a, -, hmk⟩, heq⟩, -⟩, hnote⟩ := h
  obtain ⟨x, hplace, hfs'⟩ := Option.map_eq_some_iff.mp hmk
  obtain ⟨hloc, hnone⟩ := place_eq_some.mp hplace
  have hadds : Adds w.1.fs w'.1.fs x .dir := by
    rw [heq, ← hfs']
    exact adds_insert hnone .dir
  refine ⟨x, hloc, hadds, ?_⟩
  intro y hy hmade
  have hentry : w'.1.fs.entry y = w.1.fs.entry y := by rw [hadds.2.2, if_neg hy]
  have hclean : CleanAt w.1.fs y := by
    rw [hnote] at hmade
    cases hmade with
    | inl hold => exact hw y hold
    | inr hnew => exact cleanAt_none hnew.1
  rw [CleanAt, hentry]
  rw [CleanAt] at hclean
  rw [heq, ← hfs']
  simp only [setDirAttrs, Fs.insert, if_neg hy]
  exact hclean

/-- A call that keeps the entries, and cleans what it changes if it changes the mode. -/
theorem madeDir_step {fs : Fs} {path : Text} {x : Loc} {c : Call} {r : Res c}
    (h : MadeDir fs path x w) (hstep : Noted umask w c r w') (hc : Quiet c)
    (hsame : SameEntries w.1.fs w'.1.fs) : MadeDir fs path x w' := by
  obtain ⟨hloc, ⟨hnone, hcwd, hentry⟩, htidy⟩ := h
  refine ⟨hloc, ⟨hnone, hsame.1.trans hcwd, fun y => (hsame.2 y).trans (hentry y)⟩, ?_⟩
  intro y hy hmade
  have hcare := careful_of_posix hstep.1 hc
  rw [hstep.2] at hmade
  apply hcare
  cases hmade with
  | inl hold => exact htidy y hy hold
  | inr hnew => exact cleanAt_none hnew.1

theorem madeDir_chmod {fs : Fs} {path : Text} {x : Loc} {mode : Nat} {u : Unit}
    (h : MadeDir fs path x w) (hstep : Noted umask w (.chmod path mode) (.ok u) w')
    (hmode : NoBits mode) : Tidy w' := by
  obtain ⟨⟨⟨fs', hset, heq⟩, -⟩, -⟩ := id hstep
  have hsame : SameEntries w.1.fs w'.1.fs := by
    rw [heq]
    exact setAttrs_same hset
  have hafter := madeDir_step h hstep hmode hsame
  intro y hmade
  by_cases hy : y = x
  · -- the directory is where the path leads
    obtain ⟨loc, hloc, hat⟩ := Option.bind_eq_some_iff.mp hset
    have hdir : w.1.fs.entry x = some .dir := by rw [h.adds.2.2, if_pos rfl]
    have hfollow : FollowsAs fs false true x := Or.inr ⟨rfl, fun t => by simp [h.adds.1]⟩
    have hsome : (w.1.fs.entry loc).isSome := by
      cases he : w.1.fs.entry loc with
      | none => simp [he] at hat
      | some e => rfl
    have hx : loc = x := locate_keepsLinks (keepsLinks_adds h.adds (by simp)) h.located
      (resolve_dirPath (resolve_eq_some.mpr ⟨hloc, hsome⟩)) hfollow
    rw [hx] at hat
    simp only [hdir, Option.some.injEq] at hat
    rw [hy, CleanAt, heq, ← hat]
    rw [show (w.1.fs.setDirAttrs x { w.1.fs.dirAttrs x with mode := mode }).entry x =
      w.1.fs.entry x from rfl, hdir]
    simp only [setDirAttrs, if_true]
    exact hmode
  · exact hafter.tidy y hy hmade

theorem copyTimeAndPermissions_cleans {fs : Fs} {x : Loc} (src path : Text)
    (copy_ownership : Bool) (h : MadeDir fs path x w) :
    Holds (Noted umask) (fun _ _ => True)
      (copyTimeAndPermissions src path false copy_ownership)
      (fun _ w' => Tidy w') (fun _ _ => True) w := by
  rw [copyTimeAndPermissions]
  apply holds_bind
  refine ⟨trivial, fun r w₁ h₁ => ?_⟩
  cases r with
  | error e => exact trivial
  | ok sbuf =>
      have hm₁ : MadeDir fs path x w₁ := by
        apply madeDir_step h h₁ trivial
        rw [h₁.1.1.2]
        exact ⟨rfl, fun _ => rfl⟩
      apply holds_bind
      refine ⟨trivial, fun r w₂ h₂ => ?_⟩
      cases r with
      | error e => exact trivial
      | ok u =>
          have hm₂ : MadeDir fs path x w₂ := by
            obtain ⟨fs', hset, heq⟩ := h₂.1.1
            apply madeDir_step hm₁ h₂ trivial
            rw [heq]
            exact setAttrs_same hset
          have hchmod : ∀ w₃, MadeDir fs path x w₃ → Holds (Noted umask) (fun _ _ => True)
              (chmod path (lessBits sbuf.attrs.mode (S_ISUID ||| S_ISGID)))
              (fun _ w' => Tidy w') (fun _ _ => True) w₃ := by
            intro w₃ hm₃
            refine ⟨trivial, fun r w₄ h₄ => ?_⟩
            cases r with
            | error e => exact trivial
            | ok u => exact madeDir_chmod hm₃ h₄ (noBits_lessBits _)
          apply holds_bind
          cases copy_ownership with
          | false => exact hchmod w₂ hm₂
          | true =>
              refine ⟨trivial, fun r w₃ h₃ => ?_⟩
              cases r with
              | error e => exact trivial
              | ok u =>
                  apply hchmod
                  obtain ⟨fs', ⟨_, hset⟩, heq⟩ := h₃.1.1
                  apply madeDir_step hm₂ h₃ trivial
                  rw [heq]
                  exact setAttrs_same hset

/-- A new directory is given its permissions, or no handler sees that it has not. -/
theorem mkdir_tidy (o : ParentOptions) (ho : o.copy_permissions = true)
    (hs : o.allow_suid = false) (origpath jailpath : Text) :
    StaysTidy umask (do
      mkdir jailpath 0o755
      copyParentPermissions o origpath jailpath
      pure (some jailpath)) := by
  intro w hw
  apply holds_bind
  refine ⟨trivial, fun r w₁ h₁ => ?_⟩
  cases r with
  | error e =>
      intro _
      obtain ⟨⟨⟨-, heq⟩, -⟩, hnote⟩ := h₁
      intro x hx
      rw [hnote, heq] at hx
      rw [heq]
      cases hx with
      | inl hold => exact hw x hold
      | inr hnew => exact cleanAt_none hnew.1
  | ok u =>
      obtain ⟨x, hm⟩ := madeDir_mkdir hw h₁
      apply holds_bind
      rw [copyParentPermissions, ho, hs]
      apply holds_bind
      apply holds_attempt
      apply holds_mono (copyTimeAndPermissions_cleans origpath jailpath o.copy_ownership hm)
      · exact fun a w' hw' => hw'
      · intro e w' _
        -- the exceptions that come out of the handler are seen by none
        cases e with
        | osError _ | osErrorText | outsideJail | valueError | nameError | typeError
        | indexError | unboundLocal | memoryError | recursionError => exact fun h => h.elim

theorem createParent_tidy {recur : Text → Py (Option Text)} {chroot : Text} {o : ParentOptions}
    (ho : o.copy_permissions = true) (hs : o.allow_suid = false)
    (hrecur : ∀ path, StaysTidy umask (recur path)) (origpath jailpath : Text) (sb : StatBuf) :
    StaysTidy umask (createParent recur chroot o origpath jailpath sb) := by
  rw [createParent]
  split
  · exact mkdir_tidy o ho hs origpath jailpath
  · refine tidy_bind (tidy_quiet ⟨trivial, fun _ => trivial⟩) fun realfile => ?_
    refine tidy_bind (tidy_quiet ⟨trivial, fun _ => trivial⟩) fun _ => ?_
    split
    · exact tidy_raise _
    · split
      · exact hrecur _
      · dsimp only
        split
        · exact tidy_raise _
        · exact hrecur _
  · exact tidy_pure _

theorem createMissing_tidy {recur : Text → Py (Option Text)} {chroot : Text} {o : ParentOptions}
    (ho : o.copy_permissions = true) (hs : o.allow_suid = false)
    (hrecur : ∀ path, StaysTidy umask (recur path)) (existpath : Option Text)
    (done spath : List Text) :
    StaysTidy umask (createMissing recur chroot o existpath done spath) := by
  induction spath generalizing existpath done with
  | nil =>
      rw [createMissing]
      exact tidy_pure _
  | cons entry spath ih =>
      cases existpath with
      | none => exact tidy_raise _
      | some existpath =>
          rw [createMissing]
          apply tidy_bind
          · apply tidy_catchOs _ (tidy_pure _)
            exact tidy_bind (tidy_looks (cachedlstat_looks _ _)) fun sb => tidy_pure (some sb)
          · intro sb
            cases sb with
            | none => exact tidy_pure _
            | some sb =>
                apply tidy_bind (createParent_tidy ho hs hrecur _ _ sb)
                exact fun existpath => ih existpath _

theorem createParentPath_tidy (n : Nat) (chroot path : Text) {o : ParentOptions}
    (ho : o.copy_permissions = true) (hs : o.allow_suid = false) :
    StaysTidy umask (createParentPath n chroot path o) := by
  induction n generalizing path with
  | zero => exact tidy_raise _
  | succ n ih =>
      rw [createParentPath]
      apply tidy_bind (tidy_looks (split_only path))
      intro spath
      apply tidy_bind (tidy_looks (followExisting_looks _ _ _ _))
      intro ⟨existpath, done, left⟩
      exact createMissing_tidy ho hs ih _ _ _

theorem copyDevice_tidy (fuel : Nat) (chroot path : Text) (retain_owner : Bool) :
    StaysTidy umask (copyDevice fuel chroot path retain_owner) := by
  apply tidy_bind (createParentPath_tidy fuel chroot _ rfl rfl)
  intro _
  apply tidy_bind (tidy_looks (resolveRealpath_looks _ _ _))
  intro chrootpath
  refine tidy_bind (tidy_quiet ⟨trivial, fun _ => trivial⟩) fun there => ?_
  cases there with
  | true => exact tidy_pure ()
  | false =>
      refine tidy_bind (tidy_quiet ⟨trivial, fun _ => trivial⟩) fun sb => ?_
      apply tidy_quiet
      refine only_bind (only_attempt (makeDevice_quiet sb _ _ _)) fun r => ?_
      cases r with
      | ok u => exact trivial
      | error e => exact trivial

theorem copyEntries_tidy {recur : Text → Nat → Py Nat} {o : CopyOptions}
    (hs : o.allow_suid = false) (fuel : Nat) (chroot dir : Text)
    (hrecur : ∀ dir ref, StaysTidy umask (recur dir ref)) (entries files2 : List Text)
    (ref : Nat) : StaysTidy umask (copyEntries recur fuel chroot dir o entries files2 ref) := by
  induction entries generalizing files2 ref with
  | nil => exact tidy_pure _
  | cons entry entries ih =>
      rw [copyEntries]
      apply tidy_bind
      · apply tidy_exceptOs
        · apply tidy_bind (tidy_looks (cachedlstat_looks _ _))
          intro sbuf
          split
          · apply tidy_bind (createParentPath_tidy fuel chroot _ rfl hs)
            intro _
            exact tidy_bind (hrecur _ _) fun _ => tidy_pure _
          · exact tidy_pure _
        · intro e
          split
          · exact tidy_raise _
          · exact tidy_pure _
      · exact fun next => ih next.1 next.2

theorem deleteDest_tidy (o : CopyOptions) (chrootsb : Option StatBuf) (chrootrfile : Text) :
    StaysTidy umask (deleteDest o chrootsb chrootrfile) := by
  cases chrootsb with
  | none => exact tidy_pure ()
  | some chrootsb =>
      rw [deleteDest]
      split
      · exact tidy_exceptOs (tidy_quiet ⟨trivial, fun _ => trivial⟩) fun _ => tidy_raise _
      · exact tidy_pure ()

/-- What a recursive call of `copy_binaries_and_libs` is relied on for. -/
def CopyTidy (umask : Nat) (copyFiles : CopyFiles) : Prop :=
  ∀ files o glob ref, o.allow_suid = false → StaysTidy umask (copyFiles files o glob ref)

section

variable {copyFiles : CopyFiles} {o : CopyOptions} (hcopy : CopyTidy umask copyFiles)
  (hs : o.allow_suid = false)

include hcopy hs

theorem copyDirRecursive_tidy (fuel : Nat) (chroot : Text) (n : Nat) (dir : Text) (ref : Nat) :
    StaysTidy umask (copyDirRecursive copyFiles fuel chroot o n dir ref) := by
  induction n generalizing dir ref with
  | zero => exact tidy_raise _
  | succ n ih =>
      rw [copyDirRecursive]
      refine tidy_bind (tidy_quiet ⟨trivial, fun _ => trivial⟩) fun entries => ?_
      apply tidy_bind (copyEntries_tidy hs fuel chroot dir ih entries [] ref)
      exact fun _ => hcopy _ _ _ _ hs

theorem copySymlink_tidy (file chrootrfile : Text) (ref : Nat) :
    StaysTidy umask (copySymlink copyFiles o file chrootrfile ref) := by
  refine tidy_bind (tidy_quiet ⟨trivial, fun _ => trivial⟩) fun realfile => ?_
  apply tidy_bind
  · exact tidy_exceptOs (tidy_quiet ⟨trivial, fun _ => trivial⟩) fun _ => tidy_pure ()
  · intro _
    refine tidy_bind (tidy_quiet ⟨trivial, fun _ => trivial⟩) fun _ => ?_
    split
    · exact tidy_raise _
    · split
      · exact hcopy _ _ _ _ hs
      · exact hcopy _ _ _ _ hs

theorem copyByFormat_tidy (fuel : Nat) (chroot file chrootrfile : Text) (sb : StatBuf)
    (ref : Nat) :
    StaysTidy umask (copyByFormat copyFiles fuel chroot o file chrootrfile sb ref) := by
  rw [copyByFormat]
  split
  · exact copySymlink_tidy hcopy hs file chrootrfile ref
  · exact copyDirRecursive_tidy hcopy hs fuel chroot fuel file ref
  · rw [hs]
    apply tidy_bind (copyWithPermissions_tidy _ _ _ _)
    intro _
    exact tidy_quiet (only_bind ⟨trivial, fun _ => trivial⟩ fun _ => trivial)
  · exact tidy_bind (copyDevice_tidy _ _ _ _) fun _ => tidy_pure _
  · exact tidy_bind (copyDevice_tidy _ _ _ _) fun _ => tidy_pure _
  · exact tidy_pure _

omit hs in
theorem copyLibs_tidy (file : Text) (sb : StatBuf) (ref : Nat) :
    StaysTidy umask (copyLibs copyFiles o file sb ref) := by
  rw [copyLibs]
  split
  · refine tidy_bind (tidy_quiet ⟨trivial, fun _ => trivial⟩) fun libs => ?_
    exact hcopy _ _ _ _ rfl
  · exact tidy_pure _

theorem copyFound_tidy (fuel : Nat) (chroot file : Text) (sb : StatBuf) (dest : Dest)
    (ref : Nat) : StaysTidy umask (copyFound copyFiles fuel chroot o file sb dest ref) := by
  rw [copyFound]
  apply tidy_bind (createParentPath_tidy fuel chroot _ rfl hs)
  intro _
  apply tidy_bind (tidy_looks (resolveRealpath_looks _ _ _))
  intro chrootrfile
  apply tidy_bind (tidy_looks (lookAtDest_looks _ _))
  intro dest
  cases dest with
  | none => exact tidy_raise _
  | some chrootsb =>
      dsimp only
      split
      · exact tidy_pure _
      · apply tidy_bind (deleteDest_tidy o chrootsb chrootrfile)
        intro _
        apply tidy_bind (createParentPath_tidy fuel chroot _ rfl hs)
        intro _
        apply tidy_bind (copyByFormat_tidy hcopy hs fuel chroot file chrootrfile sb ref)
        intro ref
        apply tidy_bind (copyLibs_tidy hcopy file sb ref)
        exact fun _ => tidy_pure _

theorem copyOne_tidy (fuel : Nat) (chroot : Text) (glob_ : Bool) (file : Text) (dest : Dest)
    (ref : Nat) : StaysTidy umask (copyOne copyFiles fuel chroot o glob_ file dest ref) := by
  rw [copyOne]
  refine tidy_bind (tidy_quiet ⟨trivial, fun _ => trivial⟩) fun handled => ?_
  split
  · exact tidy_pure _
  · apply tidy_bind (tidy_looks (only_attempt (cachedlstat_looks _ _)))
    intro r
    split
    · exact copyFound_tidy hcopy hs fuel chroot file _ dest ref
    · apply tidy_bind _ fun _ => tidy_pure _
      rw [copyMatching]
      split
      · refine tidy_bind (tidy_quiet ⟨trivial, fun _ => trivial⟩) fun ret => ?_
        split
        · exact hcopy _ _ _ _ rfl
        · exact tidy_pure _
      · exact tidy_pure _
    · exact tidy_raise _
    · exact tidy_raise _

theorem copyLoop_tidy (fuel : Nat) (chroot : Text) (glob_ : Bool) (files : List Text)
    (dest : Dest) (ref : Nat) :
    StaysTidy umask (copyLoop copyFiles fuel chroot o glob_ files dest ref) := by
  induction files generalizing dest ref with
  | nil => exact tidy_pure _
  | cons file files ih =>
      rw [copyLoop]
      apply tidy_bind (copyOne_tidy hcopy hs fuel chroot glob_ file dest ref)
      exact fun next => ih next.1 next.2

end

theorem copyBinariesAndLibs_tidy (n : Nat) (chroot : Text) :
    CopyTidy umask (copyBinariesAndLibs n chroot) := by
  induction n generalizing chroot with
  | zero => exact fun _ _ _ _ _ => tidy_raise _
  | succ n ih =>
      intro files o glob_ ref hs
      rw [copyBinariesAndLibs]
      split
      · exact tidy_raise _
      · exact copyLoop_tidy (ih _) hs n _ glob_ files none ref

/-- Without `allow_suid`, in a run that hard-links no file with the bits, no directory or
regular file that has been made has one of the bits when the call returns. -/
theorem copyBinariesAndLibs_no_suid {umask fuel : Nat} {chroot : Text} {files : List Text}
    {o : CopyOptions} {try_glob_matching : Bool} {handledfiles r : Nat} {s s' : World}
    {made : Loc → Prop} (ho : o.allow_suid = false)
    (h : Prog.Returns (Prog.noting (posixWhere umask LinksClean) noteNew)
      (copyBinariesAndLibs fuel chroot files o try_glob_matching handledfiles)
      (s, fun _ => False) (.ok r) (s', made)) :
    ∀ x, made x → CleanAt s'.fs x := by
  have hstart : Tidy (s, fun _ => False) := fun _ hx => hx.elim
  have htidy : CopyTidy umask (copyBinariesAndLibs fuel chroot) :=
    copyBinariesAndLibs_tidy fuel chroot
  exact Prog.result_of_returns (htidy files o try_glob_matching handledfiles ho _ hstart) h

/-- What is there at the end and was not at the beginning has been noted. -/
theorem noted_of_new {M : Prog.Machine Call Res World} {p : Prog Call Res α}
    {w w' : World × (Loc → Prop)} {a : α} {x : Loc}
    (h : Prog.Returns (Prog.noting M noteNew) p w a w')
    (hx : (w.1.fs.entry x).isSome → w.2 x) : (w'.1.fs.entry x).isSome → w'.2 x := by
  induction h with
  | ret => exact hx
  | @call c k w r w₁ a w' hM _ ih =>
      apply ih
      intro hsome
      rw [hM.2]
      cases he : w.1.fs.entry x with
      | none => exact Or.inr ⟨he, hsome⟩
      | some e => exact Or.inl (hx (by rw [he]; rfl))

def setuidSource (mode : Nat) : World :=
  worldOf mode ((["su".toList], .file 1) :: dirsAt [["jail".toList]])

def defaultOptions (try_hardlink : Bool) : CopyOptions := ⟨false, true, try_hardlink, false, false⟩

def hasFile (test : Inode → Bool) (fs : Fs) (x : Loc) : Bool :=
  match fs.entry x with
  | some (.file ino) => test (fs.inode ino)
  | _ => false

def setuidInode (i : Inode) : Bool :=
  decide (i.kind = .reg) && decide (i.attrs.mode &&& (S_ISUID ||| S_ISGID) ≠ 0)

theorem not_cleanAt_setuid {x : Loc} (h : hasFile setuidInode fs x = true) :
    (fs.entry x).isSome ∧ ¬ CleanAt fs x := by
  rw [hasFile] at h
  split at h
  next ino he =>
    simp only [setuidInode, Bool.and_eq_true, decide_eq_true_eq] at h
    rw [he]
    refine ⟨rfl, fun hclean => ?_⟩
    rw [CleanAt, he] at hclean
    exact h.2 (hclean h.1)
  next => cases h

def returnsOk : Except Exn Nat → Bool
  | .ok _ => true
  | .error _ => false

def cleanFile (s : World) (src : Text) : Bool :=
  match s.fs.lookup false src with
  | some (.file ino) => !setuidInode (s.fs.inode ino)
  | _ => true

/-- A hard link of a file with the bits fails. -/
def executeClean (umask : Nat) (s : World) : (c : Call) → Option (Res c × World)
  | .link src dst =>
      if cleanFile s src then some (execute umask s (.link src dst))
      else some (.error (.osError 18), s)
  | c => some (execute umask s c)

theorem posixWhere_executeClean (umask : Nat) (s : World) (c : Call) (r : Res c) (s' : World)
    (h : executeClean umask s c = some (r, s')) : posixWhere umask LinksClean s c r s' := by
  cases c with
  | link src dst =>
      rw [executeClean] at h
      split at h
      next hclean =>
        refine ⟨posix_of_execute umask s _ r s' h, ?_⟩
        cases r with
        | error e => trivial
        | ok u =>
            intro ino hino hreg
            simpa [cleanFile, hino, setuidInode, hreg, NoBits] using hclean
      next =>
        cases h
        exact ⟨⟨⟨18, rfl⟩, rfl⟩, trivial⟩
  | _ => exact ⟨posix_of_execute umask s _ r s' h, trivial⟩

def mixedSource : World :=
  let world := worldOf 0o4755 ((["bin".toList, "su".toList], .file 1) ::
    (["bin".toList, "sh".toList], .file 2) :: dirsAt [["jail".toList], ["bin".toList]])
  { world with fs := world.fs.setInode 2 ⟨.reg, rootAttrs 0o755, [], 0⟩ }

/-- The directory is made, one file is linked and the other one is copied. -/
theorem copyBinariesAndLibs_no_suid_sample :
    ∃ r s' made, Prog.Returns (Prog.noting (posixWhere 0o022 LinksClean) noteNew)
        (copyBinariesAndLibs 9 "/jail".toList ["/bin".toList] (defaultOptions true) false 0)
        (mixedSource, fun _ => False) (.ok r) (s', made) ∧
      s'.fs.entry ["jail".toList, "bin".toList, "sh".toList] = some (.file 2) ∧
      ∀ x ∈ [["jail".toList, "bin".toList], ["jail".toList, "bin".toList, "sh".toList],
        ["jail".toList, "bin".toList, "su".toList]], made x ∧ CleanAt s'.fs x := by
  let places := [["jail".toList, "bin".toList], ["jail".toList, "bin".toList, "sh".toList],
    ["jail".toList, "bin".toList, "su".toList]]
  have hrun : ((copyBinariesAndLibs 9 "/jail".toList ["/bin".toList] (defaultOptions true)
      false 0).finish (executeClean 0o022) mixedSource).any (fun x => returnsOk x.1 &&
        decide (x.2.fs.entry ["jail".toList, "bin".toList, "sh".toList] = some (.file 2)) &&
        places.all fun y => (x.2.fs.entry y).isSome) = true := by decide +kernel
  obtain ⟨a, s', hret, hcheck⟩ := Prog.returns_of_any (posixWhere_executeClean 0o022) hrun
  simp only [Bool.and_eq_true, decide_eq_true_eq, List.all_eq_true] at hcheck
  obtain ⟨⟨hok, hlinked⟩, hthere⟩ := hcheck
  obtain ⟨made, hnoted⟩ := Prog.returns_noting noteNew hret fun _ => False
  have hstart : ∀ x ∈ places, (mixedSource.fs.entry x).isSome → False := by decide +kernel
  cases a with
  | error e => cases hok
  | ok r =>
      refine ⟨r, s', made, hnoted, hlinked, fun x hx => ?_⟩
      have hmade := noted_of_new hnoted (hstart x hx) (hthere x hx)
      exact ⟨hmade, copyBinariesAndLibs_no_suid rfl hnoted x hmade⟩

/-- By default the file is linked, with its mode. -/
theorem copyBinariesAndLibs_links_suid :
    ∃ r s' made, Prog.Returns (Prog.noting (posix 0o022) noteNew)
        (copyBinariesAndLibs 9 "/jail".toList ["/su".toList] (defaultOptions true) false 0)
        (setuidSource 0o4755, fun _ => False) (.ok r) (s', made) ∧
      made ["jail".toList, "su".toList] ∧ ¬ CleanAt s'.fs ["jail".toList, "su".toList] := by
  have hrun : ((copyBinariesAndLibs 9 "/jail".toList ["/su".toList] (defaultOptions true)
      false 0).finish (fun s c => some (execute 0o022 s c)) (setuidSource 0o4755)).any (fun x =>
        returnsOk x.1 && hasFile setuidInode x.2.fs ["jail".toList, "su".toList]) = true := by
    decide +kernel
  obtain ⟨a, s', hret, hcheck⟩ := Prog.returns_of_any (posix_of_execute 0o022) hrun
  simp only [Bool.and_eq_true] at hcheck
  obtain ⟨made, hnoted⟩ := Prog.returns_noting noteNew hret fun _ => False
  have hstart : ((setuidSource 0o4755).fs.entry ["jail".toList, "su".toList]).isSome →
      False := by decide +kernel
  obtain ⟨hsome, hdirty⟩ := not_cleanAt_setuid hcheck.2
  have hmade := noted_of_new hnoted hstart hsome
  cases a with
  | error e => cases hcheck.1
  | ok r => exact ⟨r, s', made, hnoted, hmade, hdirty⟩

end Jailkit.Tools
