import Jailkit.Lib.Trees
import Jailkit.Lib.Walks
import Jailkit.Tools.Calls
import Jailkit.Wrapper.LaunchPrivileges

/-!
The file that jk_chrootlaunch tests, and the file that it starts in the jail.
-/
namespace Jailkit.Wrapper

open Prog

def formatBits : Tools.Format → Nat
  | .lnk => 0o120000
  | .dir => 0o40000
  | .reg => 0o100000
  | .chr => 0o20000
  | .blk => 0o60000
  | .other => 0o10000

def statBits (buf : Tools.StatBuf) : Stat where
  st_mode := formatBits buf.format ||| (buf.attrs.mode &&& 0o7777)
  st_uid := buf.attrs.uid
  st_gid := buf.attrs.gid

/-- `lstat` looks at this file system; the other calls may answer anything. -/
def onDisk (fs : Fs) : Machine Call Res Unit := fun _ c r _ =>
  match c, r with
  | .lstat path, r => r = (Tools.statPath fs false path).map statBits
  | _, _ => True

/-- The regular file that `execv` starts in a process whose root and working directory are `D`. -/
def execFile (fs : Fs) (D : Loc) (path : Text) : Option Nat :=
  match (fs.chrooted D).lookup true path with
  | some (.file ino) => if (fs.inode ino).kind = .reg then some ino else none
  | _ => none

/-- Root's own, and not writable for group or others, and neither setuid nor setgid. -/
structure Trusted (a : Attrs) : Prop where
  uid : a.uid = 0
  gid : a.gid = 0
  groupw : a.mode &&& S_IWGRP = 0
  otherw : a.mode &&& S_IWOTH = 0
  setuid : a.mode &&& S_ISUID = 0
  setgid : a.mode &&& S_ISGID = 0

theorem statBits_format (buf : Tools.StatBuf) : (statBits buf).format = formatBits buf.format := by
  have hmask : buf.attrs.mode &&& 0o7777 &&& 0o170000 = 0 := by
    rw [Nat.and_assoc]
    exact Nat.and_zero _
  rw [Stat.format, statBits, Nat.and_or_distrib_right, hmask, Nat.or_zero]
  cases buf.format <;> rfl

/-- The permission bits are those of the attributes. -/
theorem statBits_mode (buf : Tools.StatBuf) {bit : Nat}
    (hbit : bit ∈ [S_ISUID, S_ISGID, S_IWGRP, S_IWOTH]) :
    (statBits buf).mode bit = (buf.attrs.mode &&& bit != 0) := by
  have hformat : formatBits buf.format &&& bit = 0 ∧ 0o7777 &&& bit = bit := by
    simp only [List.mem_cons, List.not_mem_nil, or_false] at hbit
    rcases hbit with rfl | rfl | rfl | rfl <;> cases buf.format <;> exact ⟨rfl, rfl⟩
  rw [Stat.mode, statBits, Nat.and_or_distrib_right, hformat.1, Nat.zero_or, Nat.and_assoc,
    hformat.2]

theorem trusted_of_safe {buf : Tools.StatBuf} (hreg : buf.format = .reg)
    (h : execIsUnsafe (statBits buf) = false) : Trusted buf.attrs := by
  have hisReg : (statBits buf).isReg = true := by
    rw [Stat.isReg, statBits_format, hreg]
    rfl
  simp only [execIsUnsafe, hisReg, Bool.true_and, Bool.or_eq_false_iff, bne_eq_false_iff_eq] at h
  obtain ⟨⟨⟨-, hsuid, hsgid⟩, hgroupw, hotherw⟩, huid, hgid⟩ := h
  rw [statBits_mode buf (by simp), bne_eq_false_iff_eq] at hsuid hsgid hgroupw hotherw
  exact ⟨huid, hgid, hgroupw, hotherw, hsuid, hsgid⟩

theorem combineExec_drop (jail exec : Text) :
    combineExec jail exec = jail ++ (combineExec jail exec).drop jail.length := by
  rw [combineExec]
  split
  next h =>
    obtain ⟨rest, hrest⟩ := h
    rw [← hrest, List.drop_left]
  next => rw [List.drop_left]

theorem testJailAndExec_returns {σ : Type} {M : Machine Call Res σ} {s s' : σ}
    {jail exec jail' e : Text}
    (h : Returns M (testJailAndExec (some jail) (some exec)) s (jail', e) s') :
    e = (combineExec jail exec).drop jail.length ∧ jail.head? = some '/' ∧
      ∃ s₁ sbuf s₂, M s₁ (.lstat (combineExec jail exec)) (some sbuf) s₂ ∧
        execIsUnsafe sbuf = false := by
  rw [testJailAndExec, returns_bind_iff] at h
  obtain ⟨_, s₁, habs, h⟩ := h
  rw [returns_bind_iff] at h
  obtain ⟨safe, s₂, -, h⟩ := h
  rw [returns_bind_iff] at h
  obtain ⟨_, s₃, -, h⟩ := h
  rw [returns_bind_iff] at h
  obtain ⟨sbuf, s₄, hlstat, h⟩ := h
  cases sbuf with
  | none => exact absurd h not_returns_exit
  | some sbuf =>
      rw [returns_bind_iff] at h
      obtain ⟨_, s₅, htests, h⟩ := h
      refine ⟨congrArg Prod.snd (returns_pure.mp h).1, Classical.not_not.mp (returns_exitIf habs).1,
        s₃, sbuf, s₄, returns_perform.mp hlstat, ?_⟩
      simpa using (returns_exitIf htests).1

theorem locate_below {fs : Fs} {jail e : Text} {D l : Loc} (habs : jail.head? = some '/')
    (hslash : jail.getLast? = some '/') (hD : fs.locate true jail = some D)
    (h : fs.locate false (jail ++ e) = some l) :
    fs.entry D = some .dir ∧ ∃ k, fs.walk false k D (Fs.components e) = some l := by
  obtain ⟨head, rfl⟩ : ∃ head, jail = head ++ ['/'] :=
    ⟨jail.dropLast, (List.dropLast_append_getLast? '/' hslash).symm⟩
  have hjail : head ++ ['/'] ≠ [] := by simp
  have hhead : (head ++ ['/'] ++ e).head? = some '/' := by
    rw [List.head?_append, habs]
    rfl
  have hcomponents : Fs.components (head ++ ['/'] ++ e) = Fs.components head ++ Fs.components e := by
    rw [List.append_assoc]
    exact JkLib.components_slash head e
  rw [Fs.locate, if_neg (by simp), Fs.isAbsolute, hhead, hcomponents] at h
  rw [Fs.locate, if_neg hjail, Fs.isAbsolute, habs, Fs.components_slash_end] at hD
  obtain ⟨d, hd, hdir, k, hk⟩ := Fs.walk_split (List.splitOn_ne_nil '/' e) _ _ _ _ h
  rw [hd] at hD
  cases hD
  exact ⟨hdir, k, hk⟩

theorem not_symlink_of_safe {fs : Fs} {l : Loc} {buf : Tools.StatBuf}
    (hstat : Tools.statOf fs l = some buf) (hsafe : execIsUnsafe (statBits buf) = false)
    (t : Text) : fs.entry l ≠ some (.symlink t) := by
  intro hlink
  rw [Tools.statOf, hlink] at hstat
  cases hstat
  exact absurd hsafe (by decide)

theorem execFile_eq_some {fs : Fs} {D : Loc} {e : Text} {ino : Nat}
    (hD : fs.entry D = some .dir) (h : execFile fs D e = some ino) :
    ∃ l, (fs.chrooted D).walk true Fs.maxSymlinks [] (Fs.components e) = some l ∧
      fs.entry (D ++ l) = some (.file ino) ∧ (fs.inode ino).kind = .reg := by
  rw [execFile] at h
  split at h
  next ino' hlookup =>
    split at h
    next hreg =>
      cases h
      obtain ⟨l, hl, hentry⟩ := Option.bind_eq_some_iff.mp hlookup
      rw [Fs.entry_chrooted hD] at hentry
      refine ⟨l, ?_, hentry, hreg⟩
      simpa [Fs.chrooted] using (Fs.locate_eq_some.mp hl).2
    next => cases h
  next => cases h

/-- Where the walk of `lstat` from the jail on depends on no root, the file that is started is
the one that has been tested. -/
theorem exec_tested (fs : Fs) (jail exec e : Text) (D : Loc) (ino : Nat)
    (hslash : jail.getLast? = some '/') (hD : fs.locate true jail = some D)
    (hret : Returns (onDisk fs) (testJailAndExec (some jail) (some exec)) () (jail, e) ())
    (hstays : ¬ fs.Leaves D [] (Fs.components e))
    (hexec : execFile fs D e = some ino) :
    fs.lookup false (combineExec jail exec) = some (.file ino) ∧
      Trusted (fs.inode ino).attrs := by
  obtain ⟨he, habs, _, sbuf, _, hlstat, hsafe⟩ := testJailAndExec_returns hret
  have hpath : combineExec jail exec = jail ++ e := by
    rw [he]
    exact combineExec_drop jail exec
  rw [hpath] at hlstat ⊢
  obtain ⟨buf, hbuf, rfl⟩ := Option.map_eq_some_iff.mp hlstat.symm
  obtain ⟨l, hl, hstat⟩ := Option.bind_eq_some_iff.mp hbuf
  obtain ⟨hdir, k, hwalk⟩ := locate_below habs hslash hD hl
  obtain ⟨l', hl', hentry, hreg⟩ := execFile_eq_some hdir hexec
  have hsame : l = D ++ l' := by
    refine Fs.walk_rooted hdir (not_symlink_of_safe hstat hsafe) k _ [] _ hstays ?_ hl'
    rwa [List.append_nil]
  rw [← hsame] at hentry
  rw [Tools.statOf, hentry] at hstat
  cases hstat
  refine ⟨?_, trusted_of_safe (congrArg Tools.Format.ofKind hreg) hsafe⟩
  rw [Fs.lookup, hl]
  exact hentry

def rootAttrs (mode : Nat) : Attrs := ⟨mode, 0, 0, 0, 0⟩

/-- `/j/app` is a link to `/opt/app`, which is there on the host and in the jail. -/
def appLinked : Fs where
  nodes := [(["j".toList], .dir), (["j".toList, "app".toList], .symlink "/opt/app".toList),
    (["opt".toList], .dir), (["opt".toList, "app".toList], .dir),
    (["opt".toList, "app".toList, "run".toList], .file 0),
    (["j".toList, "opt".toList], .dir), (["j".toList, "opt".toList, "app".toList], .dir),
    (["j".toList, "opt".toList, "app".toList, "run".toList], .file 1)]
  dirAttrs := fun _ => rootAttrs 0o755
  inode := fun ino =>
    if ino = 0 then ⟨.reg, rootAttrs 0o755, [], 0⟩ else ⟨.reg, ⟨0o4755, 1000, 1000, 0, 0⟩, [], 0⟩
  nextIno := 2
  cwd := []

def diskAnswer (fs : Fs) (s : Unit) : (c : Call) → Option (Res c × Unit)
  | .lstat path => some ((Tools.statPath fs false path).map statBits, s)
  | _ => none

theorem diskAnswer_onDisk (fs : Fs) (s : Unit) (c : Call) (r : Res c) (s' : Unit)
    (h : diskAnswer fs s c = some (r, s')) : onDisk fs s c r s' := by
  cases c with
  | lstat path =>
      cases h
      rfl
  | _ => cases h

def appLinkedInside : Fs :=
  { appLinked with
    nodes := [(["j".toList], .dir), (["j".toList, "app".toList], .symlink "opt/app".toList),
      (["j".toList, "opt".toList], .dir), (["j".toList, "opt".toList, "app".toList], .dir),
      (["j".toList, "opt".toList, "app".toList, "run".toList], .file 0)] }

/-- The link is followed twice, with `..` between. -/
theorem exec_tested_linkedInside :
    appLinkedInside.lookup false (combineExec "/j/".toList "/app/../app/run".toList) =
        some (.file 0) ∧
      Trusted (appLinkedInside.inode 0).attrs := by
  have hrun : (testJailAndExec (some "/j/".toList) (some "/app/../app/run".toList)).finish
      (diskAnswer appLinkedInside) () = some (("/j/".toList, "/app/../app/run".toList), ()) := by
    decide +kernel
  have hstays : appLinkedInside.staysFor ["j".toList] 9 []
      (Fs.components "/app/../app/run".toList) = true := by decide +kernel
  exact exec_tested appLinkedInside "/j/".toList "/app/../app/run".toList "/app/../app/run".toList
    ["j".toList] 0 (by decide +kernel) (by decide +kernel)
    (returns_of_finish (diskAnswer_onDisk appLinkedInside) hrun)
    (Fs.not_leaves_of_staysFor hstays) (by decide +kernel)

/-- A setuid program of another user is started, and the test was about another file. -/
theorem exec_untested :
    Returns (onDisk appLinked) (testJailAndExec (some "/j/".toList) (some "/app/run".toList)) ()
        ("/j/".toList, "/app/run".toList) () ∧
      appLinked.locate true "/j/".toList = some ["j".toList] ∧
      appLinked.lookup false (combineExec "/j/".toList "/app/run".toList) = some (.file 0) ∧
      execFile appLinked ["j".toList] "/app/run".toList = some 1 ∧
      ¬ Trusted (appLinked.inode 1).attrs := by
  have hrun : (testJailAndExec (some "/j/".toList) (some "/app/run".toList)).finish
      (diskAnswer appLinked) () = some (("/j/".toList, "/app/run".toList), ()) := by
    decide +kernel
  refine ⟨returns_of_finish (diskAnswer_onDisk appLinked) hrun, by decide +kernel,
    by decide +kernel, by decide +kernel, fun h => ?_⟩
  exact absurd h.uid (by decide)

end Jailkit.Wrapper
