import Jailkit.Wrapper.Chrootsh

/-!
The home directory policy of jk_chrootsh: what its checks let pass, and which lookups
switch them off without a line that asks for it.
-/
namespace Jailkit.Wrapper

def relaxKeys : List String :=
  ["relax_home_owner", "relax_home_group", "relax_home_group_permissions",
    "relax_home_other_permissions"]

/-- The section that main selects has a line with exactly this key and a number that is
not zero. -/
def Relaxed (memory : Memory) (file user group : Text) (key : String) : Prop :=
  ∃ sec body r, Ini.selectSection memory file user group = some (sec, body) ∧
    Ini.LineIn body key.toList r ∧ Ini.magnitude 10 (Ini.valuePart r) ≠ 0

/-- What passes the checks is not a symlink, and each condition holds or is relaxed. -/
def HomePolicy (memory : Memory) (file user group : Text) : Prop :=
  ∀ sbuf uid gid,
    homeChecks (chrootshOptions memory file user group) (testsafepath sbuf uid gid) = none →
    ∃ s, sbuf = some s ∧ s.isLnk = false ∧
      (s.st_uid = uid ∨ Relaxed memory file user group "relax_home_owner") ∧
      (s.st_gid = gid ∨ Relaxed memory file user group "relax_home_group") ∧
      (s.mode S_IWGRP = false ∨
        Relaxed memory file user group "relax_home_group_permissions") ∧
      (s.mode S_IWOTH = false ∨
        Relaxed memory file user group "relax_home_other_permissions")

/-- The lookup for the key, started at the header of the selected section, neither runs
into another section nor takes a number other than 0. -/
def StaysOff (memory : Memory) (file user group : Text) (key : String) : Prop :=
  ∀ sec body, Ini.selectSection memory file user group = some (sec, body) →
    let text := Ini.fseek file (Ini.sectionPosition file body sec)
    ¬ Ini.RunsIntoSection sec (cstring memory key.toList) text ∧
      ¬ Ini.TakesNumber sec (cstring memory key.toList) text 10 (· ≠ 0)

/-- The flag that main keeps for a key. -/
def relaxFlag (memory : Memory) (file user group : Text) (key : String) : Nat :=
  match Ini.selectSection memory file user group with
  | none => 0
  | some (sec, body) => Ini.intOption memory file sec (Ini.sectionPosition file body sec) key

theorem chrootshOptions_flags (memory : Memory) (file user group : Text) :
    let o := chrootshOptions memory file user group
    o.relax_home_owner = relaxFlag memory file user group "relax_home_owner" ∧
      o.relax_home_group = relaxFlag memory file user group "relax_home_group" ∧
      o.relax_home_group_permissions =
        relaxFlag memory file user group "relax_home_group_permissions" ∧
      o.relax_home_other_permissions =
        relaxFlag memory file user group "relax_home_other_permissions" := by
  simp only [chrootshOptions, relaxFlag]
  cases Ini.selectSection memory file user group <;> exact ⟨rfl, rfl, rfl, rfl⟩

theorem relaxFlag_eq_zero_iff (memory : Memory) (file user group : Text) (key : String) :
    relaxFlag memory file user group key = 0 ↔ StaysOff memory file user group key := by
  simp only [relaxFlag, StaysOff]
  cases h : Ini.selectSection memory file user group with
  | none => simp
  | some r =>
      obtain ⟨sec, body⟩ := r
      have hnumber := Ini.number_ne_zero 10 file sec (cstring memory key.toList)
        (Ini.sectionPosition file body sec)
      simp only [Ini.intOption, Ini.iniparserGetIntAtPosition, Option.some.injEq, Prod.mk.injEq]
      rw [← not_iff_not, ← ne_eq, hnumber]
      constructor
      · intro hrel hoff
        obtain ⟨h₁, h₂⟩ := hoff sec body ⟨rfl, rfl⟩
        exact hrel.elim h₁ h₂
      · intro hoff
        by_contra hrel
        rw [not_or] at hrel
        refine hoff ?_
        rintro _ _ ⟨rfl, rfl⟩
        exact hrel

theorem homeChecks_none (o : ChrootshOptions) (s : Stat) (uid gid : Nat) :
    homeChecks o (testsafepath (some s) uid gid) = none ↔
      s.isLnk = false ∧ (o.relax_home_owner ≠ 0 ∨ s.st_uid = uid) ∧
        (o.relax_home_group ≠ 0 ∨ s.st_gid = gid) ∧
        (o.relax_home_group_permissions ≠ 0 ∨ s.mode S_IWGRP = false) ∧
        (o.relax_home_other_permissions ≠ 0 ∨ s.mode S_IWOTH = false) := by
  obtain ⟨hreg, -, -, hgroupw, hotherw, howner, hgroup⟩ := testsafepath_spec s uid gid
  simp only [homeChecks, hreg, hgroupw, hotherw, howner, hgroup]
  grind

theorem homeChecks_missing (o : ChrootshOptions) (uid gid : Nat) :
    homeChecks o (testsafepath none uid gid) = some 53 := by
  have h : has (testsafepath none uid gid) TESTPATH_NOREGPATH = true := by
    simp only [testsafepath]
    decide
  simp only [homeChecks, h, ite_true]

/-- A directory owned by user and group 0 and not writable for others, but for one bit. -/
def directory (bits : Nat) : Stat := ⟨0o40755 ||| bits, 0, 0⟩

/-- The policy is kept exactly if every option without an explicit line stays off. -/
theorem homePolicy_iff (memory : Memory) (file user group : Text) :
    HomePolicy memory file user group ↔
      ∀ key ∈ relaxKeys, ¬ Relaxed memory file user group key →
        StaysOff memory file user group key := by
  obtain ⟨howner, hgroup, hgroupw, hotherw⟩ := chrootshOptions_flags memory file user group
  simp only [← relaxFlag_eq_zero_iff]
  constructor
  · intro h key hkey hrelaxed
    by_contra hflag
    -- for each option, a directory that fails its check and no other one
    simp only [relaxKeys, List.mem_cons, List.not_mem_nil, or_false] at hkey
    rcases hkey with rfl | rfl | rfl | rfl
    · obtain ⟨s, hs, -, hc, -⟩ := h (some (directory 0)) 1 0 (by
        rw [homeChecks_none, howner]
        exact ⟨by decide, Or.inl hflag, Or.inr rfl, Or.inr (by decide), Or.inr (by decide)⟩)
      cases hs
      exact hc.elim (by decide) hrelaxed
    · obtain ⟨s, hs, -, -, hc, -⟩ := h (some (directory 0)) 0 1 (by
        rw [homeChecks_none, hgroup]
        exact ⟨by decide, Or.inr rfl, Or.inl hflag, Or.inr (by decide), Or.inr (by decide)⟩)
      cases hs
      exact hc.elim (by decide) hrelaxed
    · obtain ⟨s, hs, -, -, -, hc, -⟩ := h (some (directory S_IWGRP)) 0 0 (by
        rw [homeChecks_none, hgroupw]
        exact ⟨by decide, Or.inr rfl, Or.inr rfl, Or.inl hflag, Or.inr (by decide)⟩)
      cases hs
      exact hc.elim (by decide) hrelaxed
    · obtain ⟨s, hs, -, -, -, -, hc⟩ := h (some (directory S_IWOTH)) 0 0 (by
        rw [homeChecks_none, hotherw]
        exact ⟨by decide, Or.inr rfl, Or.inr rfl, Or.inr (by decide), Or.inl hflag⟩)
      cases hs
      exact hc.elim (by decide) hrelaxed
  · intro h sbuf uid gid hpass
    have hflag : ∀ key ∈ relaxKeys, relaxFlag memory file user group key ≠ 0 →
        Relaxed memory file user group key := by
      intro key hkey hflag
      by_contra hrelaxed
      exact hflag (h key hkey hrelaxed)
    cases sbuf with
    | none => simp [homeChecks_missing] at hpass
    | some s =>
        rw [homeChecks_none, howner, hgroup, hgroupw, hotherw] at hpass
        obtain ⟨hlnk, h₁, h₂, h₃, h₄⟩ := hpass
        exact ⟨s, rfl, hlnk, (h₁.imp_left (hflag _ (by decide))).symm,
          (h₂.imp_left (hflag _ (by decide))).symm, (h₃.imp_left (hflag _ (by decide))).symm,
          (h₄.imp_left (hflag _ (by decide))).symm⟩

def twoSections : Text := "[bob]\nenv=TERM\n[alice]\nenv=TERM\n".toList

/-- The absent options read as -1, and a home of another user, writable for all, passes. -/
theorem homePolicy_two_sections :
    homeChecks (chrootshOptions (fun _ _ => nul) twoSections "bob".toList "users".toList)
        (testsafepath (some ⟨0o40777, 5, 5⟩) 1000 1000) = none ∧
      ¬ HomePolicy (fun _ _ => nul) twoSections "bob".toList "users".toList := by
  have hpass : homeChecks
      (chrootshOptions (fun _ _ => nul) twoSections "bob".toList "users".toList)
      (testsafepath (some ⟨0o40777, 5, 5⟩) 1000 1000) = none := by decide +kernel
  refine ⟨hpass, fun h => ?_⟩
  obtain ⟨s, hs, -, howner, -⟩ := h _ _ _ hpass
  cases hs
  rcases howner with howner | ⟨sec, body, r, hsection, ⟨B, K, hbody, -, -, -, hK⟩, -⟩
  · exact absurd howner (by decide)
  · have hselect : (Ini.selectSection (fun _ _ => nul) twoSections "bob".toList
        "users".toList).map Prod.snd = some "\nenv=TERM\n[alice]\nenv=TERM\n".toList := by
      decide +kernel
    rw [hsection] at hselect
    have hx : 'x' ∈ K := mem_of_mem_trim (by rw [hK]; decide)
    have hbody' : 'x' ∈ body := by
      rw [hbody]
      simp [hx]
    have htext : body = _ := Option.some.inj hselect
    rw [htext] at hbody'
    exact absurd hbody' (by decide)

end Jailkit.Wrapper
