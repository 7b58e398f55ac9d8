import Jailkit.Tools.Execute
import Jailkit.Tools.Unforced
import Jailkit.Update.Scan

/-!
Where the files are that jk_update removes.
-/
namespace Jailkit.Update

open JkLib Raising Tools
open Fs (ValidName Shrinks)

def InJail (fs : Fs) (jail : Text) (d : Loc) : Prop :=
  ∃ C, fs.locate true (jail ++ ['/']) = some C ∧ C <+: d

def ListsInside (In : Loc → Prop) (s : World) (c : Call) (r : Res c) : Prop :=
  match c, r with
  | .listdir path, .ok _ => ∀ l, s.fs.locate true path = some l → In l
  | _, _ => True

/-- The entry that an `unlink` would remove stands in a directory that lies inside. -/
def UnlinksInside (In : Loc → Prop) (s : World) (c : Call) : Prop :=
  ∀ path loc, c = .unlink path → s.fs.locate false path = some loc →
    ∃ d name, loc = d ++ [name] ∧ s.fs.entry d = some .dir ∧ In d

/-- Whatever else is removed first, the path leads into such a directory, or nowhere. -/
def Settled (In : Loc → Prop) (fs : Fs) (path : Text) : Prop :=
  ∀ fs', Shrinks fs fs' → ∀ loc, fs'.locate false path = some loc →
    ∃ d name, loc = d ++ [name] ∧ fs'.entry d = some .dir ∧ In d

def FoundSettled (In : Loc → Prop) (jail : Text) (found : Found) (s : World) : Prop :=
  ∀ file ∈ found.files2update ++ found.files2clean, Settled In s.fs (jail ++ file)

def Later (s s' : World) : Prop := Shrinks s.fs s'.fs

instance : Std.Refl Later := ⟨fun s => Fs.shrinks_refl s.fs⟩

instance : IsTrans World Later := ⟨fun _ _ _ h h' => Fs.shrinks_trans h h'⟩

section

variable {α : Type} {umask : Nat} {In : Loc → Prop} {jail : Text} {s s' : World}

/-- The runs of the deletion phase in which each directory listed lies inside. -/
abbrev Tidies (umask : Nat) (In : Loc → Prop) (p : Py α) (Q : α → World → Prop) (s : World) :
    Prop :=
  Along (posixWhere umask (ListsInside In)) (UnlinksInside In) Later p Q s

theorem settled_later {path : Text} (h : Settled In s.fs path) (hl : Later s s') :
    Settled In s'.fs path := fun fs' hfs' => h fs' (Fs.shrinks_trans hl hfs')

theorem foundSettled_later {found : Found} (h : FoundSettled In jail found s)
    (hl : Later s s') : FoundSettled In jail found s' :=
  fun file hfile => settled_later (h file hfile) hl

theorem settled_listed {path name : Text} {d : Loc} (hpath : path.getLast? = some '/')
    (hname : ValidName name) (hd : s.fs.locate true path = some d) (hin : In d) :
    Settled In s.fs (path ++ name) := by
  intro fs' hfs' loc hloc
  obtain ⟨d', hd', hdir, hchild⟩ := Fs.locate_slash_child hpath hname hloc
  have hsame : d' = d := Fs.locate_keepsLinks (Fs.keepsLinks_of_shrinks hfs') hd
    (Fs.resolve_eq_some.mpr ⟨hd', by rw [hdir]; rfl⟩) (Or.inl rfl)
  rw [hsame] at hdir hchild
  cases hchild with
  | inl hloc => exact ⟨d, name, hloc, hdir, hin⟩
  | inr hlink => exact absurd hlink.1 Bool.false_ne_true

theorem unlinksInside_looks {c : Call} (h : Looks c) : UnlinksInside In s c := by
  intro path loc heq
  rw [heq] at h
  exact h.elim

theorem later_looks {c : Call} {r : Res c} (hc : Looks c)
    (h : posixWhere umask (ListsInside In) s c r s') : Later s s' := by
  rw [Later, posix_looks hc h.1]
  exact Fs.shrinks_refl s.fs

theorem tidies_looks {p : Py α} (hp : Prog.Only Looks p) :
    Tidies umask In p (fun _ _ => True) s :=
  along_of_only hp (fun _ _ _ _ hc hM => later_looks hc hM)
    (fun _ _ hc => unlinksInside_looks hc) s

/-- An exception is looked at by the code that follows. -/
theorem needUpdate_looks (original injail : Text) (origstatbuf : SizedStat) :
    Prog.Only Looks (needUpdate original injail origstatbuf) := by
  have hmeta : Prog.Only Looks (compareMetadata original injail origstatbuf) := by
    refine only_bind ⟨trivial, fun _ => trivial⟩ fun sbB => ?_
    split
    · split
      · exact trivial
      · split
        · exact trivial
        · split
          · refine only_bind ⟨trivial, fun _ => trivial⟩ fun targetA => ?_
            exact only_bind ⟨trivial, fun _ => trivial⟩ fun _ => trivial
          · exact trivial
    · exact trivial
  have hcontent : Prog.Only Looks (compareContent original injail) := by
    refine only_bind (only_attempt ?_) fun r => ?_
    · refine only_bind ⟨trivial, fun _ => trivial⟩ fun fA => ?_
      exact only_bind ⟨trivial, fun _ => trivial⟩ fun _ => trivial
    · split
      · exact trivial
      · exact trivial
      · exact trivial
      · exact trivial
  refine only_bind (only_attempt (only_bind hmeta fun same => ?_)) fun r => ?_
  · split
    · refine only_bind hcontent fun same => ?_
      split
      · exact trivial
      · exact trivial
    · exact trivial
  · split
    · exact trivial
    · split
      · exact trivial
      · exact trivial
    · exact trivial
    · exact trivial

theorem foundSettled_update {found : Found} {file : Text} (h : FoundSettled In jail found s)
    (hfile : Settled In s.fs (jail ++ file)) : FoundSettled In jail (found.update file) s := by
  intro f hf
  simp only [Found.update, List.append_assoc, List.mem_append, List.mem_singleton] at hf
  rcases hf with hf | hf | hf
  · exact h f (List.mem_append_left _ hf)
  · rwa [hf]
  · exact h f (List.mem_append_right _ hf)

theorem foundSettled_clean {found : Found} {file : Text} (h : FoundSettled In jail found s)
    (hfile : Settled In s.fs (jail ++ file)) : FoundSettled In jail (found.clean file) s := by
  intro f hf
  simp only [Found.clean, ← List.append_assoc, List.mem_append, List.mem_singleton] at hf
  cases hf with
  | inl hf => exact h f (List.mem_append.mpr hf)
  | inr hf => rwa [hf]

theorem exceptMissing_tidies {p : Py Found} {found : Found} {file : Text}
    (hp : Tidies umask In p (FoundSettled In jail) s) (hfound : FoundSettled In jail found s)
    (hfile : Settled In s.fs (jail ++ file)) :
    Tidies umask In (exceptMissing p found file) (FoundSettled In jail) s := by
  apply along_handle hp
  · exact fun found' s' _ hfound' => along_pure found' hfound'
  · intro e s' hl
    cases e with
    | osError errno =>
        simp only
        split
        · exact along_pure _
            (foundSettled_clean (foundSettled_later hfound hl) (settled_later hfile hl))
        · exact along_pure _ (foundSettled_later hfound hl)
    | osErrorText | outsideJail | valueError | nameError | typeError | indexError
    | unboundLocal | memoryError | recursionError => exact along_raise _

theorem checkFile_tidies {recur : Text → Found → Py Found}
    (hrecur : ∀ dir found s, dir.getLast? = some '/' → FoundSettled In jail found s →
      Tidies umask In (recur dir found) (FoundSettled In jail) s)
    {file : Text} {found : Found} (hfound : FoundSettled In jail found s)
    (hfile : Settled In s.fs (jail ++ file)) :
    Tidies umask In (checkFile recur jail file found) (FoundSettled In jail) s := by
  refine exceptMissing_tidies (along_bind (tidies_looks ⟨trivial, fun _ => trivial⟩) ?_)
    hfound hfile
  intro sbuf s₁ hl₁ _
  have hfound₁ := foundSettled_later hfound hl₁
  split
  · exact hrecur _ _ _ (by simp) hfound₁
  · apply along_bind (tidies_looks (needUpdate_looks _ _ _))
    intro ret s₂ hl₂ _
    have hfound₂ := foundSettled_later hfound₁ hl₂
    have hfile₂ := settled_later (settled_later hfile hl₁) hl₂
    split
    · exact along_pure _ (foundSettled_update hfound₂ hfile₂)
    · split
      · exact along_pure _ (foundSettled_clean hfound₂ hfile₂)
      · exact along_pure _ hfound₂
  · exact along_pure _ hfound₁

theorem scanNames_tidies {recur : Text → Found → Py Found}
    (hrecur : ∀ dir found s, dir.getLast? = some '/' → FoundSettled In jail found s →
      Tidies umask In (recur dir found) (FoundSettled In jail) s)
    (skips : List Text) (dir : Text) (files : List Text) (found : Found) (s : World)
    (hfiles : ∀ file ∈ files, Settled In s.fs (jail ++ (dir ++ file)))
    (hfound : FoundSettled In jail found s) :
    Tidies umask In (scanNames recur jail skips dir files found) (FoundSettled In jail) s := by
  induction files generalizing found s with
  | nil => exact along_pure found hfound
  | cons file files ih =>
      have hone : Tidies umask In
          (scanName recur jail skips dir file found) (FoundSettled In jail) s := by
        rw [scanName]
        split
        · exact along_pure found hfound
        · exact checkFile_tidies hrecur hfound (hfiles file List.mem_cons_self)
      apply along_bind hone
      intro found' s' hl hfound'
      refine ih found' s' (fun f hf => ?_) hfound'
      exact settled_later (hfiles f (List.mem_cons_of_mem _ hf)) hl

theorem find2update_tidies (skips : List Text) (n : Nat) (dir : Text) (found : Found)
    (s : World) (hdir : dir.getLast? = some '/') (hfound : FoundSettled In jail found s) :
    Tidies umask In (find2update jail skips n dir found) (FoundSettled In jail) s := by
  induction n generalizing dir found s with
  | zero => exact along_raise _
  | succ n ih =>
      have hpath : (jail ++ dir).getLast? = some '/' := by
        rw [List.getLast?_append, hdir]
        rfl
      have hlist : Tidies umask In (listdir (jail ++ dir)) (fun files s' =>
          ∀ file ∈ files, Settled In s'.fs (jail ++ (dir ++ file))) s := by
        refine ⟨unlinksInside_looks trivial, fun r s' hM => ?_⟩
        have hlooks : Looks (.listdir (jail ++ dir)) := trivial
        have hl : Later s s' := later_looks hlooks hM
        cases r with
        | error e => exact hl
        | ok files =>
            obtain ⟨⟨⟨d, hd, _, hnames⟩, heq⟩, hok⟩ := hM
            refine ⟨hl, fun file hfile => ?_⟩
            rw [← List.append_assoc]
            exact settled_later
              (settled_listed hpath ((hnames.2 file).mp hfile).1 hd (hok d hd)) hl
      apply along_bind hlist
      intro files s' hl hfiles
      exact scanNames_tidies (fun dir found s => ih dir found s) skips dir files found s' hfiles
        (foundSettled_later hfound hl)

theorem removeFiles_tidies (dryRun : Bool) (files : List Text) (s : World)
    (hfiles : ∀ file ∈ files, Settled In s.fs (jail ++ file)) :
    Tidies umask In (removeFiles dryRun jail files) (fun _ _ => True) s := by
  induction files generalizing s with
  | nil => exact along_pure _ trivial
  | cons file files ih =>
      have hunlink : Tidies umask In (unlink (jail ++ file)) (fun _ _ => True) s := by
        refine ⟨fun path loc heq hloc => ?_, fun r s' hM => ?_⟩
        · cases heq
          exact hfiles file List.mem_cons_self s.fs (Fs.shrinks_refl s.fs) loc hloc
        · cases r with
          | error e =>
              have heq : s' = s := hM.1.2
              rw [heq]
              exact Fs.shrinks_refl s.fs
          | ok u =>
              obtain ⟨⟨fs', hun, heq⟩, _⟩ := hM
              rw [heq]
              exact ⟨Fs.unlink_shrinks hun, trivial⟩
      have hone : Tidies umask In
          (removeFile dryRun (jail ++ file)) (fun _ _ => True) s := by
        rw [removeFile]
        split
        · exact along_pure true trivial
        · apply along_handle hunlink
          · exact fun _ _ _ _ => along_pure true trivial
          · exact fun _ _ _ => along_pure false trivial
      apply along_bind hone
      intro gone s' hl _
      apply along_bind (ih s' fun f hf =>
        settled_later (hfiles f (List.mem_cons_of_mem _ hf)) hl)
      intro rest s'' _ _
      exact along_pure _ trivial

theorem scanned_slash (jail dir : Text) : (scanned jail dir).getLast? = some '/' := by
  unfold scanned
  generalize (if dir.take jail.length = jail then dir.drop jail.length else dir) = dir
  rw [withSlash]
  split
  next h => exact h
  next => exact List.getLast?_concat

theorem scanDir_tidies (fuel : Nat) (skips : List Text) (dir : Text) (s : World)
    (hdir : dir.getLast? = some '/') :
    Tidies umask In (scanDir fuel jail skips dir) (FoundSettled In jail) s := by
  have hnone : ∀ s, FoundSettled In jail ⟨[], []⟩ s := fun s file hfile => by cases hfile
  apply along_handle (find2update_tidies skips fuel dir ⟨[], []⟩ s hdir (hnone s))
  · exact fun found s' _ hfound => along_pure found hfound
  · intro e s' _
    cases e with
    | osError errno => exact along_pure _ (hnone s')
    | osErrorText | outsideJail | valueError | nameError | typeError | indexError
    | unboundLocal | memoryError | recursionError => exact along_raise _

theorem updateDir_tidies (fuel : Nat) (dryRun : Bool) (skips : List Text) (dir : Text)
    (s : World) (hdir : dir.getLast? = some '/') :
    Tidies umask In (updateDir fuel dryRun jail skips dir) (fun _ _ => True) s := by
  rw [updateDir]
  split
  · exact along_pure _ trivial
  · apply along_bind (scanDir_tidies fuel skips dir s hdir)
    intro found s₁ _ hfound
    apply along_bind (removeFiles_tidies dryRun found.files2update s₁ fun file hfile =>
      hfound file (List.mem_append_left _ hfile))
    intro files s₂ hl₂ _
    apply along_bind (removeFiles_tidies dryRun found.files2clean s₂ fun file hfile =>
      settled_later (hfound file (List.mem_append_right _ hfile)) hl₂)
    intro cleans s₃ _ _
    exact along_pure _ trivial

theorem removeOld_tidies (fuel : Nat) (dryRun : Bool) (skips dirs : List Text) (s : World) :
    Tidies umask In (removeOld fuel dryRun jail skips dirs) (fun _ _ => True) s := by
  induction dirs generalizing s with
  | nil => exact along_pure _ trivial
  | cons dir dirs ih =>
      apply along_bind (updateDir_tidies fuel dryRun skips _ s (scanned_slash jail dir))
      intro _ s₁ _ _
      apply along_bind (ih s₁)
      intro _ s₂ _ _
      exact along_pure _ trivial

end

/-- What `updatejail` removes it removes before it copies. If each directory that is listed
until then is the jail or lies in it, each entry removed stands in such a directory. -/
theorem updatejail_unlinks_inside (umask fuel : Nat) (dryRun hardlink : Bool) (jail : Text)
    (skips dirs : List Text) (s s' : World) (path : Text) :
    (Prog.Reaches (posix umask) (updatejail fuel dryRun hardlink jail skips dirs) s
        (.unlink path) s' →
      Prog.Reaches (posix umask) (removeOld fuel dryRun jail skips dirs) s (.unlink path) s') ∧
    (Prog.Reaches (posixWhere umask (ListsInside (InJail s.fs jail)))
        (removeOld fuel dryRun jail skips dirs) s (.unlink path) s' →
      UnlinksInside (InJail s.fs jail) s' (.unlink path)) := by
  constructor
  · intro h
    cases Prog.reaches_bind_cases h with
    | inl h => exact h
    | inr h =>
        obtain ⟨r, s₁, _, h⟩ := h
        have hno : ¬ NoUnlink (.unlink path) := fun hno => hno path rfl
        refine absurd h (Prog.not_reaches_of_only ?_ hno)
        cases r with
        | error e => exact trivial
        | ok allfiles =>
            simp only [andThen]
            split
            · exact trivial
            · exact only_bind (copyBinariesAndLibs_unforced fuel jail allfiles _ false 0 rfl)
                fun _ => trivial
  · intro h
    exact Prog.guard_of_reaches (removeOld_tidies fuel dryRun skips dirs s) h

def linkedLib (target : Text) : World :=
  worldOf 0o644 ((["jail".toList, "lib".toList], .symlink target) ::
    (["srv".toList, "f".toList], .file 0) ::
    (["jail".toList, "opt".toList, "f".toList], .file 1) ::
    dirsAt [["jail".toList], ["jail".toList, "opt".toList], ["srv".toList], ["lib".toList]])

def isUnlink : Call → Bool
  | .unlink _ => true
  | _ => false

/-- The answers of a run in which all directories listed lie in the jail. -/
def executeInside (umask : Nat) (C : Loc) (s : World) (c : Call) : Option (Res c × World) :=
  if lists c then some (execute umask s c) else none
where
  lists : Call → Bool
    | .listdir path => (s.fs.locate true path).all fun l => C.isPrefixOf l
    | _ => true

theorem posixWhere_executeInside {fs : Fs} {jail : Text} {C : Loc}
    (hC : fs.locate true (jail ++ ['/']) = some C) (umask : Nat) (s : World) (c : Call)
    (r : Res c) (s' : World) (h : executeInside umask C s c = some (r, s')) :
    posixWhere umask (ListsInside (InJail fs jail)) s c r s' := by
  simp only [executeInside, Option.ite_none_right_eq_some, Option.some.injEq] at h
  obtain ⟨hlists, heq⟩ := h
  have hposix := posix_execute umask s c
  rw [heq] at hposix
  refine ⟨hposix, ?_⟩
  cases c with
  | listdir path =>
      cases r with
      | error e => exact trivial
      | ok files =>
          intro l hl
          simp only [executeInside.lists, hl, Option.all_some] at hlists
          exact ⟨C, hC, List.isPrefixOf_iff_prefix.mp hlists⟩
  | _ => exact trivial

theorem updatejail_unlinks_inside_opt :
    ∃ s₁ s₂, Prog.Reaches (posix 0o022)
        (removeOld 9 false "/jail".toList [] ["/opt".toList]) (linkedLib "/srv".toList)
        (.unlink "/jail/opt/f".toList) s₁ ∧
      UnlinksInside (InJail (linkedLib "/srv".toList).fs "/jail".toList) s₂
        (.unlink "/jail/opt/f".toList) := by
  have hjail : (linkedLib "/srv".toList).fs.locate true ("/jail".toList ++ ['/']) =
      some ["jail".toList] := by decide +kernel
  have hrun : ((updatejail 9 false false "/jail".toList [] ["/opt".toList]).drive
      (fun s c => some (execute 0o022 s c)) isUnlink (linkedLib "/srv".toList)).any
        (fun step => decide (step.1 = .unlink "/jail/opt/f".toList)) = true := by decide +kernel
  have hinside : ((removeOld 9 false "/jail".toList [] ["/opt".toList]).drive
      (executeInside 0o022 ["jail".toList]) isUnlink (linkedLib "/srv".toList)).any
        (fun step => decide (step.1 = .unlink "/jail/opt/f".toList)) = true := by decide +kernel
  obtain ⟨c₁, s₁, h₁, hc₁⟩ := Prog.reaches_of_any (posix_of_execute 0o022) hrun
  obtain ⟨c₂, s₂, h₂, hc₂⟩ := Prog.reaches_of_any (posixWhere_executeInside hjail 0o022) hinside
  have hc₁ : c₁ = .unlink "/jail/opt/f".toList := of_decide_eq_true hc₁
  have hc₂ : c₂ = .unlink "/jail/opt/f".toList := of_decide_eq_true hc₂
  subst hc₁ hc₂
  exact ⟨s₁, s₂, (updatejail_unlinks_inside 0o022 9 false false _ [] _ _ s₁ _).1 h₁,
    (updatejail_unlinks_inside 0o022 9 false false _ [] _ _ s₂ _).2 h₂⟩

/-- The scan goes through the symlink, and a file of the real system is removed. -/
theorem updatejail_unlinks_outside :
    ∃ s, Prog.Reaches (posix 0o022) (updatejail 9 false false "/jail".toList [] ["/lib".toList])
        (linkedLib "/srv".toList) (.unlink "/jail/lib/f".toList) s ∧
      s.fs.lookup false "/jail/lib/f".toList = some (.file 0) ∧
      s.fs.locate false "/jail/lib/f".toList = some ["srv".toList, "f".toList] ∧
      ¬ InJail (linkedLib "/srv".toList).fs "/jail".toList ["srv".toList] := by
  have hrun : ((updatejail 9 false false "/jail".toList [] ["/lib".toList]).drive
      (fun s c => some (execute 0o022 s c)) isUnlink (linkedLib "/srv".toList)).any
        (fun step => decide (step.1 = .unlink "/jail/lib/f".toList) &&
          (decide (step.2.fs.lookup false "/jail/lib/f".toList = some (.file 0)) &&
            decide (step.2.fs.locate false "/jail/lib/f".toList =
              some ["srv".toList, "f".toList]))) = true := by decide +kernel
  obtain ⟨c, s, h, hcheck⟩ := Prog.reaches_of_any (posix_of_execute 0o022) hrun
  simp only [Bool.and_eq_true, decide_eq_true_eq] at hcheck
  obtain ⟨hc, hfile, hloc⟩ := hcheck
  subst hc
  refine ⟨s, h, hfile, hloc, fun hin => ?_⟩
  obtain ⟨C, hC, hpre⟩ := hin
  have hjail : (linkedLib "/srv".toList).fs.locate true ("/jail".toList ++ ['/']) =
      some ["jail".toList] := by decide +kernel
  rw [hjail] at hC
  cases hC
  exact absurd hpre (by decide +kernel)

end Jailkit.Update
