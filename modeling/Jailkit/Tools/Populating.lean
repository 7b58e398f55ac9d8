import Jailkit.JkLib.PasswdGroup
import Jailkit.Tools.CopyContained

/-!
How jk_lib populates the jail's passwd and group files on Linux, call for call. A line that
is written is at the end of the file when the next call runs.
-/
namespace Jailkit.Tools

open JkLib Raising
open Fs (isAbsolute ValidName)

def isfile (path : Text) : Py Bool := do
  match ← attempt (stat path) with
  | .ok sb => pure (decide (sb.format = .reg))
  | .error _ => pure false

def orIndexError {α : Type} : Option α → Py α
  | some a => pure a
  | none => raise .indexError

/-- `fd2` with what is read from it: a file that is not there is made. -/
def openPopulated (path : Text) : Py Text := do
  if ← isfile path then openRead path
  else do
    writeFile path false []
    pure []

/-- The lines of the users, and the groups wanted with theirs. -/
def writeUserLines (path : Text) (users : List Text) :
    List Text → List Text → Py (List Text)
  | [], groups => pure groups
  | line :: lines, groups => do
      let pwstruct := line.splitOn ':'
      if pwstruct.length < 3 then writeUserLines path users lines groups
      else if ← orIndexError (fieldsWanted users pwstruct) then do
        writeFile path true line
        let gid ← orIndexError pwstruct[3]?
        let groups := if gid ∈ groups then groups else groups ++ [gid]
        writeUserLines path users lines groups
      else writeUserLines path users lines groups

def writeGroupLines (path : Text) (groups : List Text) : List Text → Py Unit
  | [] => pure ()
  | line :: lines => do
      let groupstruct := line.splitOn ':'
      if groupstruct.length < 2 then writeGroupLines path groups lines
      else if ← orIndexError (fieldsWanted groups groupstruct) then do
        writeFile path true line
        writeGroupLines path groups lines
      else writeGroupLines path groups lines

/-- The real file is opened only for somebody. -/
def realLines (path : Text) (wanted : List Text) : Py (List Text) :=
  if wanted = [] then pure [] else readlines <$> openRead path

def populateUsers (path : Text) (users groups : List Text) : Py (List Text × List Text) := do
  let content ← openPopulated path
  let users ← orIndexError (dropPresent 3 (readlines content) users)
  let lines ← realLines "/etc/passwd".toList users
  let groups ← writeUserLines path users lines groups
  pure (users, groups)

def populateGroups (path : Text) (groups : List Text) : Py (List Text) := do
  let content ← openPopulated path
  let groups ← orIndexError (dropPresent 2 (readlines content) groups)
  let lines ← realLines "/etc/group".toList groups
  writeGroupLines path groups lines
  pure groups

/-- `init_passwd_and_group`; it changes the lists of the caller. -/
def populatePasswdAndGroup (fuel : Nat) (chroot : Text) (users groups : List Text) :
    Py (List Text × List Text) :=
  if chroot = [] then raise .indexError
  else do
    let _ ← createParentPath fuel (stripLast chroot) "/etc/".toList ⟨false, false, false⟩
    let (users, groups) ← populateUsers (stripLast chroot ++ "/etc/passwd".toList) users groups
    let groups ← populateGroups (stripLast chroot ++ "/etc/group".toList) groups
    pure (users, groups)

section

variable {α : Type} {umask : Nat} {chroot : Text} {fs : Fs} {s : World}

theorem dirname_file {dir name : Text} (hdir : ValidName dir) (hname : '/' ∉ name) (t : Text) :
    dirname (t ++ '/' :: (dir ++ '/' :: name)) = t ++ '/' :: dir := by
  obtain ⟨d, c, hlast⟩ := (List.eq_nil_or_concat dir).resolve_left hdir.1
  have hc : c ≠ '/' := fun heq => hdir.2.2.2 (by simp [hlast, heq])
  have htext : t ++ '/' :: (dir ++ '/' :: name) = (t ++ '/' :: dir) ++ '/' :: name := by simp
  have hdirs : t ++ '/' :: dir = (t ++ '/' :: d) ++ [c] := by simp [hlast]
  have hall : ¬ (((t ++ '/' :: d) ++ [c] ++ ['/']).all fun x => x = '/') = true := by simp [hc]
  rw [htext, dirname, rdropWhile_slash _ hname, hdirs, if_neg hall,
    List.rdropWhile_concat_pos _ _ _ (by simp), List.rdropWhile_concat_neg _ _ _ (by simp [hc])]

/-- A directory of the jail is in the jail, or the symlink there leads into it. -/
theorem leadsInto_child {dir : Text} (hroot : Rooted fs chroot) (hdir : ValidName dir)
    (hlink : DirLeadsInto (names chroot) fs (chroot ++ '/' :: dir)) :
    LeadsInto (names chroot) fs (chroot ++ '/' :: dir) := by
  by_cases hno : NoLinkAt fs (chroot ++ '/' :: dir)
  · intro x hx
    have hloc := Fs.locate_unfollow (Fs.resolve_eq_some.mp hx).1 hno
    obtain ⟨d, hd, hchild⟩ := Fs.locate_child (ne_nil_of_absolute hroot.absolute) hdir hloc
    have hx : x = d ++ [dir] := hchild.2.resolve_right fun hfollow => by cases hfollow.1
    have hjail := (Fs.resolve_eq_some.mp hd).1
    rw [hroot.located] at hjail
    cases hjail
    rw [hx]
    exact List.prefix_append _ _
  · simp only [NoLinkAt, not_forall, not_not] at hno
    obtain ⟨loc, t, hloc, hentry⟩ := hno
    exact hlink t (by rw [Fs.lookup, hloc]; exact hentry)

/-- A file in a directory of the jail is opened for writing. -/
theorem writeFile_stays {dir name : Text} (hdir : ValidName dir) (hname : ValidName name)
    (kept : Bool) (text : Text) (hroot : Rooted s.fs chroot) :
    Stays umask chroot (writeFile (chroot ++ '/' :: (dir ++ '/' :: name)) kept text)
      (fun _ _ => True) s := by
  have htext : chroot ++ '/' :: (dir ++ '/' :: name) = (chroot ++ '/' :: dir) ++ '/' :: name := by
    simp
  refine stays_of_makes ⟨fun r s' hM x hx => ?_, fun r s' hM =>
    ends_step r (grows_of_posix (c := .writeFile _ kept text) trivial hM.1)⟩
  obtain ⟨hfile, hlink⟩ := hM.2
  rw [dirname_file hdir hname.2.2.2] at hlink
  have hloc := Fs.locate_unfollow hx hfile
  rw [htext] at hloc
  obtain ⟨d, hd, hchild⟩ := Fs.locate_child (by simp) hname hloc
  have hx : x = d ++ [name] := hchild.2.resolve_right fun hfollow => by cases hfollow.1
  rw [hx]
  exact (leadsInto_child hroot hdir hlink d hd).trans (List.prefix_append _ _)

theorem orIndexError_stays (o : Option α) :
    Stays umask chroot (orIndexError o) (fun _ _ => True) s := by
  cases o with
  | some a => exact along_pure a trivial
  | none => exact along_raise _

theorem isfile_looks (path : Text) : Prog.Only Looks (isfile path) := by
  refine only_bind (only_attempt ⟨trivial, fun _ => trivial⟩) fun r => ?_
  cases r with
  | ok sb => exact trivial
  | error e => exact trivial

theorem realLines_looks (path : Text) (wanted : List Text) :
    Prog.Only Looks (realLines path wanted) := by
  rw [realLines]
  split
  · exact trivial
  · exact only_bind ⟨trivial, fun _ => trivial⟩ fun _ => trivial

section

variable {dir name : Text} (hdir : ValidName dir) (hname : ValidName name)
include hdir hname

theorem openPopulated_stays (hroot : Rooted s.fs chroot) :
    Stays umask chroot (openPopulated (chroot ++ '/' :: (dir ++ '/' :: name)))
      (fun _ _ => True) s := by
  apply along_bind (stays_looks (isfile_looks _))
  intro there s₁ hs₁ _
  split
  · exact stays_looks ⟨trivial, fun _ => trivial⟩
  · apply along_bind (writeFile_stays hdir hname false [] (rooted_keeps hroot hs₁))
    intro _ s₂ _ _
    exact along_pure _ trivial

theorem writeUserLines_stays (users lines groups : List Text) (hroot : Rooted s.fs chroot) :
    Stays umask chroot
      (writeUserLines (chroot ++ '/' :: (dir ++ '/' :: name)) users lines groups)
      (fun _ _ => True) s := by
  induction lines generalizing groups s with
  | nil => exact along_pure groups trivial
  | cons line lines ih =>
      rw [writeUserLines]
      dsimp only
      split
      · exact ih groups hroot
      · apply along_bind (orIndexError_stays _)
        intro wanted s₁ hs₁ _
        have hroot₁ := rooted_keeps hroot hs₁
        split
        · apply along_bind (writeFile_stays hdir hname true line hroot₁)
          intro _ s₂ hs₂ _
          apply along_bind (orIndexError_stays _)
          intro gid s₃ hs₃ _
          exact ih _ (rooted_keeps (rooted_keeps hroot₁ hs₂) hs₃)
        · exact ih groups hroot₁

theorem writeGroupLines_stays (groups lines : List Text) (hroot : Rooted s.fs chroot) :
    Stays umask chroot (writeGroupLines (chroot ++ '/' :: (dir ++ '/' :: name)) groups lines)
      (fun _ _ => True) s := by
  induction lines generalizing s with
  | nil => exact along_pure () trivial
  | cons line lines ih =>
      rw [writeGroupLines]
      split
      · exact ih hroot
      · apply along_bind (orIndexError_stays _)
        intro wanted s₁ hs₁ _
        have hroot₁ := rooted_keeps hroot hs₁
        split
        · apply along_bind (writeFile_stays hdir hname true line hroot₁)
          intro _ s₂ hs₂ _
          exact ih (rooted_keeps hroot₁ hs₂)
        · exact ih hroot₁

theorem populateUsers_stays (users groups : List Text) (hroot : Rooted s.fs chroot) :
    Stays umask chroot (populateUsers (chroot ++ '/' :: (dir ++ '/' :: name)) users groups)
      (fun _ _ => True) s := by
  apply along_bind (openPopulated_stays hdir hname hroot)
  intro content s₁ hs₁ _
  have hroot₁ := rooted_keeps hroot hs₁
  apply along_bind (orIndexError_stays _)
  intro users s₂ hs₂ _
  have hroot₂ := rooted_keeps hroot₁ hs₂
  apply along_bind (stays_looks (realLines_looks _ users))
  intro lines s₃ hs₃ _
  apply along_bind
    (writeUserLines_stays hdir hname users lines groups (rooted_keeps hroot₂ hs₃))
  intro groups s₄ _ _
  exact along_pure _ trivial

theorem populateGroups_stays (groups : List Text) (hroot : Rooted s.fs chroot) :
    Stays umask chroot (populateGroups (chroot ++ '/' :: (dir ++ '/' :: name)) groups)
      (fun _ _ => True) s := by
  apply along_bind (openPopulated_stays hdir hname hroot)
  intro content s₁ hs₁ _
  have hroot₁ := rooted_keeps hroot hs₁
  apply along_bind (orIndexError_stays _)
  intro groups s₂ hs₂ _
  have hroot₂ := rooted_keeps hroot₁ hs₂
  apply along_bind (stays_looks (realLines_looks _ groups))
  intro lines s₃ hs₃ _
  apply along_bind (writeGroupLines_stays hdir hname groups lines (rooted_keeps hroot₂ hs₃))
  intro _ s₄ _ _
  exact along_pure _ trivial

end

theorem populatePasswdAndGroup_stays (fuel : Nat) (users groups : List Text)
    (hC : names chroot ≠ []) (hroot : Rooted s.fs chroot) :
    Stays umask chroot (populatePasswdAndGroup fuel chroot users groups) (fun _ _ => True) s := by
  have hetc : ValidName "etc".toList := by decide
  have hpasswd : ValidName "passwd".toList := by decide
  have hgroup : ValidName "group".toList := by decide
  rw [populatePasswdAndGroup]
  split
  · exact along_raise _
  · have hjail := rooted_stripLast hC hroot
    apply stays_stripLast hroot.absolute hC
    apply along_bind (stays_of_makes (createParentPath_makes fuel _ "/etc/".toList s hjail))
    intro _ s₁ hs₁ _
    have hjail₁ := rooted_keeps hjail hs₁
    apply along_bind (populateUsers_stays hetc hpasswd users groups hjail₁)
    intro r s₂ hs₂ _
    apply along_bind (populateGroups_stays hetc hgroup r.2 (rooted_keeps hjail₁ hs₂))
    intro groups s₃ _ _
    exact along_pure _ trivial

end

end Jailkit.Tools
