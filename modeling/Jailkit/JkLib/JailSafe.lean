import Jailkit.JkLib.Paths
import Jailkit.JkLib.SafePath
import Mathlib.Logic.Function.Iterate

/-!
The test of a jail directory in jk_lib.py, on a platform that is no BSD.
-/
namespace Jailkit.JkLib

def S_IFDIR : Nat := 0o40000

def isDirStat (s : Stat) : Bool := s.format == S_IFDIR

/-- What `lstat` and `readlink` say of a path that begins with a slash: two such paths with the
same names are the same file. -/
structure Statuses where
  lstat : List Text → Option Stat
  readlink : List Text → Text

section

variable (st : Statuses)

def pathIsSafe (path : Text) : Int :=
  match st.lstat (names path) with
  | none => -1
  | some statbuf =>
      if statbuf.st_uid ≠ 0 ∨ statbuf.st_gid ≠ 0 then -3
      else if (statbuf.mode S_IWOTH || statbuf.mode S_IWGRP) && !statbuf.isLnk then -4
      else if !isDirStat statbuf then
        if statbuf.isLnk then
          -- Fedora has moved /sbin /lib and /bin into /usr
          if (st.readlink (names path)).take 4 ≠ "usr/".toList then -2 else 1
        else -2
      else 1

/-- The first result below -1. -/
def subdLoop (path : Text) : List String → Option Int
  | [] => none
  | subd :: subds =>
      let retval := pathIsSafe st (path ++ '/' :: subd.toList)
      if retval < -1 then some retval else subdLoop path subds

def parentLoop : Nat → Text → Option Int
  | 0, _ => none
  | fuel + 1, npath =>
      if npath = ['/'] then some 1
      else
        let retval := pathIsSafe st npath
        if retval ≠ 1 then some retval else parentLoop fuel (dirname npath)

def osPathAbspath (cwd path : Text) : Text := normpath (osPathJoin cwd path)

def chrootIsSafe (cwd : Text) (fuel : Nat) (path : Text) : Option Int :=
  let path := osPathAbspath cwd path
  let retval := pathIsSafe st path
  if retval < -1 then some retval
  else
    match subdLoop st path ["etc", "usr", "var", "bin", "dev", "proc", "sbin", "sys"] with
    | some retval => some retval
    | none => parentLoop st fuel (dirname path)

end

/-- Owned by root, and not writable for group or others. -/
def RootsOwn (s : Stat) : Prop :=
  s.st_uid = 0 ∧ s.st_gid = 0 ∧ s.mode S_IWGRP = false ∧ s.mode S_IWOTH = false

/-- Where there is a real directory, it is root's own. -/
def SafeDir (st : Statuses) (path : Text) : Prop :=
  ∀ s, st.lstat (names path) = some s → isDirStat s = true → RootsOwn s

/-- The jail and the directories in it that the wrappers inspect. -/
def SafeForWrappers (st : Statuses) (jail : Text) : Prop :=
  SafeDir st jail ∧
    ∀ dir ∈ ["etc", "lib", "usr", "bin", "sbin", "dev"], SafeDir st (jail ++ '/' :: dir.toList)

structure PassesChecks (st : Statuses) (path : Text) : Prop where
  self : -1 ≤ pathIsSafe st path
  subds : ∀ subd ∈ ["etc", "usr", "var", "bin", "dev", "proc", "sbin", "sys"],
    -1 ≤ pathIsSafe st (path ++ '/' :: subd.toList)
  parents : ∃ n, dirname^[n] (dirname path) = ['/'] ∧
    ∀ k < n, pathIsSafe st (dirname^[k] (dirname path)) = 1

section

variable {st : Statuses} {path npath : Text}

/-- A result that is no refusal means that a directory is root's own. -/
theorem safeDir_of_pathIsSafe (h : -1 ≤ pathIsSafe st path) : SafeDir st path := by
  intro s hs hdir
  rw [pathIsSafe, hs] at h
  have hlnk : s.isLnk = false := by
    rw [Stat.isLnk, beq_eq_false_iff_ne]
    rw [isDirStat, beq_iff_eq] at hdir
    rw [hdir]
    decide
  simp only [hlnk, Bool.not_false, Bool.and_true] at h
  split at h
  next => exact absurd h (by decide)
  next howner =>
    split at h
    next => exact absurd h (by decide)
    next hwrite =>
      simp only [not_or, not_not] at howner
      simp only [Bool.or_eq_true, not_or, Bool.not_eq_true] at hwrite
      exact ⟨howner.1, howner.2, hwrite.2, hwrite.1⟩

theorem subdLoop_none_iff (subds : List String) :
    subdLoop st path subds = none ↔
      ∀ subd ∈ subds, -1 ≤ pathIsSafe st (path ++ '/' :: subd.toList) := by
  induction subds with
  | nil => simp [subdLoop]
  | cons subd subds ih =>
      rw [subdLoop, List.forall_mem_cons, ← ih]
      by_cases hlt : pathIsSafe st (path ++ '/' :: subd.toList) < -1
      · simp only [hlt, if_true]
        exact ⟨nofun, fun h => absurd h.1 (by omega)⟩
      · simp only [hlt, if_false]
        exact ⟨fun h => ⟨by omega, h⟩, fun h => h.2⟩

theorem subdLoop_some {subds : List String} {retval : Int}
    (h : subdLoop st path subds = some retval) : retval < -1 := by
  induction subds with
  | nil => cases h
  | cons subd subds ih =>
      rw [subdLoop] at h
      split at h
      next hlt => exact Option.some.inj h ▸ hlt
      next => exact ih h

/-- The loop returns 1 where it comes to the root over safe directories. -/
theorem parentLoop_one_iff :
    (∃ fuel, parentLoop st fuel npath = some 1) ↔
      ∃ n, dirname^[n] npath = ['/'] ∧ ∀ k < n, pathIsSafe st (dirname^[k] npath) = 1 := by
  constructor
  · intro h
    obtain ⟨fuel, h⟩ := h
    induction fuel generalizing npath with
    | zero => cases h
    | succ fuel ih =>
        rw [parentLoop] at h
        by_cases hroot : npath = ['/']
        · exact ⟨0, hroot, nofun⟩
        · simp only [hroot, if_false] at h
          by_cases hsafe : pathIsSafe st npath = 1
          · simp only [hsafe, ne_eq, not_true, if_false] at h
            obtain ⟨n, hn, hall⟩ := ih h
            refine ⟨n + 1, hn, fun k hk => ?_⟩
            cases k with
            | zero => exact hsafe
            | succ k => exact hall k (by omega)
          · simp only [ne_eq, hsafe, not_false_iff, if_true, Option.some.injEq] at h
  · intro h
    obtain ⟨n, hn, hall⟩ := h
    refine ⟨n + 1, ?_⟩
    induction n generalizing npath with
    | zero =>
        rw [Function.iterate_zero, id_eq] at hn
        rw [parentLoop, if_pos hn]
    | succ n ih =>
        rw [parentLoop]
        by_cases hroot : npath = ['/']
        · rw [if_pos hroot]
        · have hsafe : pathIsSafe st npath = 1 := hall 0 (by omega)
          simp only [hroot, hsafe, if_false, ne_eq, not_true]
          exact ih hn fun k hk => hall (k + 1) (by omega)

theorem chrootIsSafe_one_iff (cwd path : Text) :
    (∃ fuel, chrootIsSafe st cwd fuel path = some 1) ↔
      PassesChecks st (osPathAbspath cwd path) := by
  simp only [chrootIsSafe]
  generalize osPathAbspath cwd path = p
  by_cases hself : pathIsSafe st p < -1
  · simp only [hself, if_true, Option.some.injEq]
    constructor
    · intro h
      obtain ⟨-, hone⟩ := h
      omega
    · exact fun h => absurd h.self (by omega)
  · simp only [hself, if_false]
    cases hsubds : subdLoop st p ["etc", "usr", "var", "bin", "dev", "proc", "sbin", "sys"] with
    | some retval =>
        have hlt := subdLoop_some hsubds
        constructor
        · intro h
          obtain ⟨_, hone⟩ := h
          have hretval : retval = 1 := Option.some.inj hone
          omega
        · intro h
          rw [(subdLoop_none_iff _).mpr h.subds] at hsubds
          cases hsubds
    | none =>
        have hall := (subdLoop_none_iff _).mp hsubds
        constructor
        · exact fun h => ⟨by omega, hall, parentLoop_one_iff.mp h⟩
        · exact fun h => parentLoop_one_iff.mpr h.parents

end

/-- Who passes is safe for the wrappers just where `lib` is no unsafe directory, or some other
check fails. -/
theorem chrootIsSafe_iff (st : Statuses) (cwd path : Text) :
    ((∃ fuel, chrootIsSafe st cwd fuel path = some 1) →
        SafeForWrappers st (osPathAbspath cwd path)) ↔
      SafeDir st (osPathAbspath cwd path ++ "/lib".toList) ∨
        ¬ PassesChecks st (osPathAbspath cwd path) := by
  rw [chrootIsSafe_one_iff]
  generalize osPathAbspath cwd path = p
  constructor
  · intro h
    by_cases hpasses : PassesChecks st p
    · exact Or.inl ((h hpasses).2 "lib" (by decide))
    · exact Or.inr hpasses
  · intro h hpasses
    have hlib := h.resolve_right fun hnot => hnot hpasses
    refine ⟨safeDir_of_pathIsSafe hpasses.self, fun dir hdir => ?_⟩
    by_cases heq : dir = "lib"
    · rw [heq]
      exact hlib
    · have hmem : dir ∈ ["etc", "usr", "var", "bin", "dev", "proc", "sbin", "sys"] := by
        revert hdir heq
        simp only [List.mem_cons, List.not_mem_nil, or_false]
        tauto
      exact safeDir_of_pathIsSafe (hpasses.subds dir hmem)

def writableLib : Statuses where
  lstat path :=
    if path = ["j".toList, "lib".toList] then some ⟨0o40777, 0, 0⟩ else some ⟨0o40755, 0, 0⟩
  readlink _ := []

theorem chrootIsSafe_writable_lib :
    chrootIsSafe writableLib [] 1 "/j".toList = some 1 ∧
      ¬ SafeForWrappers writableLib "/j".toList := by
  constructor
  · decide +kernel
  · intro h
    have hown := h.2 "lib" (by decide) ⟨0o40777, 0, 0⟩ (by decide +kernel) (by decide +kernel)
    exact absurd hown.2.2.1 (by decide)

end Jailkit.JkLib
