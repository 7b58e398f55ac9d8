import Jailkit.JkLib.PyFile
import Jailkit.Lib.Graphs

/-!
How jk_init goes through the sections of its configuration and those that they include.
-/
namespace Jailkit.Tools

open JkLib

structure Section where
  name : Text
  options : List (Text × Text)

abbrev Cfg := List Section

def Cfg.hasSection (cfg : Cfg) (section_ : Text) : Bool := cfg.any fun s => s.name == section_

/-- `has_option` and `get` -/
def Cfg.get (cfg : Cfg) (section_ option : Text) : Option Text :=
  (cfg.find? fun s => s.name == section_).bind fun s => s.options.lookup option

def configGetOptionAsList (cfg : Cfg) (section_ option : Text) : List Text :=
  match cfg.get section_ option with
  | none => []
  | some inputstr => (inputstr.splitOn ',').map trim

def includesections (cfg : Cfg) (section_ : Text) : List Text :=
  configGetOptionAsList cfg section_ "includesections".toList

/-- The sections marked as done, and what the bodies of the sections work on. -/
structure InitRun (σ : Type) where
  didsections : List Text
  jail : σ
  deriving DecidableEq, Repr

section

variable {σ : Type} (cfg : Cfg) (body : Text → σ → Option σ)

def includeLoop (handle : Text → InitRun σ → Option (InitRun σ)) :
    List Text → InitRun σ → Option (InitRun σ)
  | [], run => some run
  | tmp :: sections, run =>
      if tmp ∈ run.didsections then includeLoop handle sections run
      else do
        let run ← handle tmp run
        includeLoop handle sections { run with didsections := run.didsections ++ [tmp] }

/-- The body is all that follows the includes loop. -/
def handleCfgSection : Nat → Text → InitRun σ → Option (InitRun σ)
  | 0, _, _ => none
  | fuel + 1, section_, run => do
      let run ← includeLoop (handleCfgSection fuel) (includesections cfg section_) run
      let jail ← body section_ run.jail
      some { run with jail := jail }

def activateLoop (fuel : Nat) : List Text → InitRun σ → Option (InitRun σ)
  | [], run => some run
  | section_ :: args, run =>
      if cfg.hasSection section_ then do
        let run ← handleCfgSection cfg body fuel section_ run
        activateLoop fuel args run
      else activateLoop fuel args run

def activateConfig (fuel : Nat) (args : List Text) (jail : σ) : Option (InitRun σ) :=
  activateLoop cfg body fuel args ⟨[], jail⟩

end

/-- A body that only tells that it ran. -/
def logBody (section_ : Text) (log : List Text) : Option (List Text) := some (log ++ [section_])

def bodies {σ : Type} (body : Text → σ → Option σ) (order : List Text) (jail : σ) : Option σ :=
  order.foldlM (fun jail section_ => body section_ jail) jail

def runLog {σ : Type} (body : Text → σ → Option σ) (jail : σ) (log : InitRun (List Text)) :
    Option (InitRun σ) :=
  (bodies body log.jail jail).map (InitRun.mk log.didsections)

section

variable {cfg : Cfg} {σ : Type} (body : Text → σ → Option σ)

theorem bodies_append (before after : List Text) (jail : σ) :
    bodies body (before ++ after) jail =
      (bodies body before jail).bind fun jail => bodies body after jail :=
  List.foldlM_append

theorem bodies_log (order log : List Text) : bodies logBody order log = some (log ++ order) := by
  induction order generalizing log with
  | nil => rw [List.append_nil]; rfl
  | cons section_ order ih =>
      have hrest : bodies logBody (section_ :: order) log = bodies logBody order (log ++ [section_]) :=
        rfl
      rw [hrest, ih, List.append_assoc]
      rfl

/-- What goes on behind a log, by a log that goes on. -/
theorem runLog_bind {log : InitRun (List Text)} {jail : σ} {f : InitRun σ → Option (InitRun σ)}
    {rest : Option (InitRun (List Text))}
    (hf : ∀ jail, f ⟨log.didsections, jail⟩ = rest.bind (runLog body jail)) :
    (runLog body jail log).bind f =
      (rest.bind (runLog logBody log.jail)).bind (runLog body jail) := by
  cases hfirst : bodies body log.jail jail with
  | none =>
      cases rest with
      | none => simp [runLog, hfirst]
      | some log' => simp [runLog, hfirst, bodies_log, bodies_append]
  | some jail' =>
      cases rest with
      | none => simp [runLog, hfirst, hf]
      | some log' => simp [runLog, hfirst, hf, bodies_log, bodies_append]

/-- In which order the bodies run does not depend on what they do. -/
theorem includeLoop_bodies {fuel : Nat}
    (hhandle : ∀ {σ : Type} (body : Text → σ → Option σ) x did jail,
      handleCfgSection cfg body fuel x ⟨did, jail⟩ =
        (handleCfgSection cfg logBody fuel x ⟨did, []⟩).bind (runLog body jail))
    (sections did : List Text) : ∀ {σ : Type} (body : Text → σ → Option σ) jail,
      includeLoop (handleCfgSection cfg body fuel) sections ⟨did, jail⟩ =
        (includeLoop (handleCfgSection cfg logBody fuel) sections ⟨did, []⟩).bind
          (runLog body jail) := by
  induction sections generalizing did with
  | nil => exact fun body jail => rfl
  | cons tmp sections ih =>
      intro σ body jail
      rw [includeLoop, includeLoop]
      dsimp only
      by_cases hdone : tmp ∈ did
      · rw [if_pos hdone, if_pos hdone]
        exact ih did body jail
      · rw [if_neg hdone, if_neg hdone, hhandle body]
        cases handleCfgSection cfg logBody fuel tmp ⟨did, []⟩ with
        | none => rfl
        | some log =>
            have hlog := ih (log.didsections ++ [tmp]) logBody log.jail
            simp only [Option.bind_eq_bind, Option.bind_some, hlog]
            exact runLog_bind body fun jail => ih (log.didsections ++ [tmp]) body jail

theorem handleCfgSection_bodies (fuel : Nat) :
    ∀ {σ : Type} (body : Text → σ → Option σ) (x : Text) (did : List Text) (jail : σ),
      handleCfgSection cfg body fuel x ⟨did, jail⟩ =
        (handleCfgSection cfg logBody fuel x ⟨did, []⟩).bind (runLog body jail) := by
  induction fuel with
  | zero => exact fun body x did jail => rfl
  | succ fuel ih =>
      intro σ body x did jail
      rw [handleCfgSection, handleCfgSection, includeLoop_bodies ih]
      cases includeLoop (handleCfgSection cfg logBody fuel) (includesections cfg x) ⟨did, []⟩ with
      | none => rfl
      | some log =>
          cases hfirst : bodies body log.jail jail with
          | none => simp [runLog, hfirst, logBody, bodies_append]
          | some jail' =>
              have hlast : bodies body [x] jail' = body x jail' := bind_pure _
              simp only [runLog, hfirst, logBody, bodies_append, hlast, Option.bind_eq_bind,
                Option.bind_some, Option.map_some]
              cases body x jail' with
              | none => rfl
              | some jail'' => rfl

theorem activateLoop_bodies (fuel : Nat) (args did : List Text) :
    ∀ {σ : Type} (body : Text → σ → Option σ) jail,
      activateLoop cfg body fuel args ⟨did, jail⟩ =
        (activateLoop cfg logBody fuel args ⟨did, []⟩).bind (runLog body jail) := by
  induction args generalizing did with
  | nil => exact fun body jail => rfl
  | cons section_ args ih =>
      intro σ body jail
      rw [activateLoop, activateLoop]
      split
      next =>
        rw [handleCfgSection_bodies]
        cases handleCfgSection cfg logBody fuel section_ ⟨did, []⟩ with
        | none => rfl
        | some log =>
            have hlog := ih log.didsections logBody log.jail
            simp only [Option.bind_eq_bind, Option.bind_some, hlog]
            exact runLog_bind body fun jail => ih log.didsections body jail
      next => exact ih did body jail

end

section

variable {cfg : Cfg} {run run' : InitRun (List Text)} {section_ : Text} {sections args : List Text}

/-- What holds of the sections done whenever one is begun. -/
structure SectionsDone (cfg : Cfg) (run : InitRun (List Text)) : Prop where
  once : run.didsections.Nodup
  closed : ∀ x ∈ run.didsections, includesections cfg x ⊆ run.didsections
  ends : ∀ x ∈ run.didsections, Acc (Next (includesections cfg)) x
  logged : run.didsections ⊆ run.jail
  ordered : BelowFirst (includesections cfg) run.jail

/-- What handling a section does: the sections that it marks have run, and then it runs. -/
structure Handled (cfg : Cfg) (section_ : Text) (run run' : InitRun (List Text)) : Prop where
  after : SectionsDone cfg run'
  ends : Acc (Next (includesections cfg)) section_
  includes : includesections cfg section_ ⊆ run'.didsections
  marks : ∃ marks, run'.didsections = run.didsections ++ marks ∧
    run'.jail = run.jail ++ marks ++ [section_] ∧
    ∀ x ∈ marks, Relation.TransGen (Next (includesections cfg)) x section_

theorem sectionsDone_mark (h : Handled cfg section_ run run') (hnew : section_ ∉ run.didsections) :
    SectionsDone cfg { run' with didsections := run'.didsections ++ [section_] } := by
  obtain ⟨marks, hdid, hjail, hmarks⟩ := h.marks
  have hout : section_ ∉ run'.didsections := by
    rw [hdid, List.mem_append, not_or]
    exact ⟨hnew, fun hmem => no_circle_of_acc h.ends (hmarks section_ hmem)⟩
  refine ⟨?_, ?_, ?_, ?_, h.after.ordered⟩
  · rw [List.nodup_append]
    refine ⟨h.after.once, by simp, fun x hx y hy heq => hout ?_⟩
    rwa [← List.mem_singleton.mp hy, ← heq]
  · intro x hx
    cases List.mem_append.mp hx with
    | inl hx => exact List.subset_append_of_subset_left _ (h.after.closed x hx)
    | inr hx =>
        rw [List.mem_singleton.mp hx]
        exact List.subset_append_of_subset_left _ h.includes
  · intro x hx
    cases List.mem_append.mp hx with
    | inl hx => exact h.after.ends x hx
    | inr hx =>
        rw [List.mem_singleton.mp hx]
        exact h.ends
  · intro x hx
    cases List.mem_append.mp hx with
    | inl hx => exact h.after.logged hx
    | inr hx =>
        rw [hjail]
        exact List.mem_append_right _ hx

theorem includeLoop_done {handle : Text → InitRun (List Text) → Option (InitRun (List Text))}
    (hhandle : ∀ x run run', SectionsDone cfg run → handle x run = some run' → Handled cfg x run run')
    (h : SectionsDone cfg run) (hrun : includeLoop handle sections run = some run') :
    SectionsDone cfg run' ∧ sections ⊆ run'.didsections ∧
      ∃ marks, run'.didsections = run.didsections ++ marks ∧ run'.jail = run.jail ++ marks ∧
        ∀ x ∈ marks, ∃ z ∈ sections,
          Relation.ReflTransGen (Next (includesections cfg)) x z := by
  induction sections generalizing run with
  | nil =>
      cases hrun
      exact ⟨h, List.nil_subset _, [], (List.append_nil _).symm, (List.append_nil _).symm,
        fun x hx => absurd hx List.not_mem_nil⟩
  | cons tmp sections ih =>
      rw [includeLoop] at hrun
      by_cases hdone : tmp ∈ run.didsections
      · rw [if_pos hdone] at hrun
        obtain ⟨hdones, hsub, marks, hdid, hjail, hmarks⟩ := ih h hrun
        refine ⟨hdones, List.cons_subset.mpr ⟨?_, hsub⟩, marks, hdid, hjail, fun x hx => ?_⟩
        · rw [hdid]
          exact List.mem_append_left _ hdone
        · obtain ⟨z, hz, hbelow⟩ := hmarks x hx
          exact ⟨z, List.mem_cons_of_mem tmp hz, hbelow⟩
      · rw [if_neg hdone] at hrun
        obtain ⟨mid, hmid, hrun⟩ := Option.bind_eq_some_iff.mp hrun
        have hhandled := hhandle tmp run mid h hmid
        obtain ⟨hdones, hsub, marks', hdid', hjail', hmarks'⟩ :=
          ih (sectionsDone_mark hhandled hdone) hrun
        obtain ⟨marks, hdid, hjail, hmarks⟩ := hhandled.marks
        refine ⟨hdones, List.cons_subset.mpr ⟨?_, hsub⟩, marks ++ [tmp] ++ marks', ?_, ?_,
          fun x hx => ?_⟩
        · rw [hdid']
          simp
        · rw [hdid', hdid]
          simp
        · rw [hjail', hjail]
          simp
        · rw [List.append_assoc, List.mem_append, List.mem_append] at hx
          cases hx with
          | inl hx => exact ⟨tmp, List.mem_cons_self, (hmarks x hx).to_reflTransGen⟩
          | inr hx =>
              cases hx with
              | inl hx =>
                  rw [List.mem_singleton.mp hx]
                  exact ⟨tmp, List.mem_cons_self, .refl⟩
              | inr hx =>
                  obtain ⟨z, hz, hbelow⟩ := hmarks' x hx
                  exact ⟨z, List.mem_cons_of_mem tmp hz, hbelow⟩

theorem handleCfgSection_handled (fuel : Nat) (section_ : Text) (run run' : InitRun (List Text))
    (h : SectionsDone cfg run)
    (hrun : handleCfgSection cfg logBody fuel section_ run = some run') :
    Handled cfg section_ run run' := by
  induction fuel generalizing section_ run run' with
  | zero => cases hrun
  | succ fuel ih =>
      rw [handleCfgSection] at hrun
      obtain ⟨mid, hmid, hbody⟩ := Option.bind_eq_some_iff.mp hrun
      cases hbody
      obtain ⟨hdones, hsub, marks, hdid, hjail, hmarks⟩ := includeLoop_done ih h hmid
      refine ⟨⟨hdones.once, hdones.closed, hdones.ends, ?_, ?_⟩, ?_, hsub, marks, hdid, ?_,
        fun x hx => ?_⟩
      · exact List.subset_append_of_subset_left _ hdones.logged
      · exact belowFirst_snoc hdones.ordered (List.Subset.trans hsub hdones.logged)
      · exact Acc.intro _ fun y hy => hdones.ends y (hsub hy)
      · exact congrArg (· ++ [section_]) hjail
      · obtain ⟨z, hz, hbelow⟩ := hmarks x hx
        exact .tail' hbelow hz

/-- What a run over these arguments has done. -/
structure Activated (cfg : Cfg) (roots : List Text) (run run' : InitRun (List Text)) : Prop where
  after : SectionsDone cfg run'
  ends : ∀ r ∈ roots, Acc (Next (includesections cfg)) r
  includes : ∀ r ∈ roots, includesections cfg r ⊆ run'.didsections
  marks : ∃ marks, run'.didsections = run.didsections ++ marks ∧
    (∀ x ∈ marks, ∃ r ∈ roots, Relation.TransGen (Next (includesections cfg)) x r) ∧
    ∀ x, run'.jail.count x = run.jail.count x + marks.count x + roots.count x

theorem activateLoop_activated {fuel : Nat} (h : SectionsDone cfg run)
    (hrun : activateLoop cfg logBody fuel args run = some run') :
    Activated cfg (args.filter cfg.hasSection) run run' := by
  induction args generalizing run with
  | nil =>
      cases hrun
      exact ⟨h, nofun, nofun, [], (List.append_nil _).symm, nofun, fun x => rfl⟩
  | cons section_ args ih =>
      rw [activateLoop] at hrun
      by_cases hsection : cfg.hasSection section_ = true
      · rw [if_pos hsection] at hrun
        rw [List.filter_cons_of_pos hsection]
        obtain ⟨mid, hmid, hrun⟩ := Option.bind_eq_some_iff.mp hrun
        have hhandled := handleCfgSection_handled fuel section_ run mid h hmid
        have hrest := ih hhandled.after hrun
        obtain ⟨marks, hdid, hjail, hmarks⟩ := hhandled.marks
        obtain ⟨marks', hdid', hmarks', hcount⟩ := hrest.marks
        refine ⟨hrest.after, ?_, ?_, marks ++ marks', ?_, ?_, ?_⟩
        · intro r hr
          cases List.mem_cons.mp hr with
          | inl heq => exact heq ▸ hhandled.ends
          | inr hr => exact hrest.ends r hr
        · intro r hr
          cases List.mem_cons.mp hr with
          | inl heq =>
              rw [heq, hdid']
              exact List.subset_append_of_subset_left _ hhandled.includes
          | inr hr => exact hrest.includes r hr
        · rw [hdid', hdid, List.append_assoc]
        · intro x hx
          cases List.mem_append.mp hx with
          | inl hx => exact ⟨section_, List.mem_cons_self, hmarks x hx⟩
          | inr hx =>
              obtain ⟨r, hr, hbelow⟩ := hmarks' x hx
              exact ⟨r, List.mem_cons_of_mem section_ hr, hbelow⟩
        · intro x
          rw [hcount, hjail]
          simp only [List.count_append, List.count_cons, List.count_nil]
          omega
      · rw [if_neg hsection] at hrun
        rw [List.filter_cons_of_neg hsection]
        exact ih h hrun

/-- With so much fuel or more the section is handled, whatever was done before. -/
def EndsWithin (cfg : Cfg) (least : Nat) (section_ : Text) : Prop :=
  ∀ fuel, least ≤ fuel → ∀ run, ∃ run', handleCfgSection cfg logBody fuel section_ run = some run'

theorem includeLoop_ends {fuel : Nat}
    (h : ∀ z ∈ sections, ∀ run, ∃ run', handleCfgSection cfg logBody fuel z run = some run')
    (run : InitRun (List Text)) :
    ∃ run', includeLoop (handleCfgSection cfg logBody fuel) sections run = some run' := by
  induction sections generalizing run with
  | nil => exact ⟨run, rfl⟩
  | cons tmp sections ih =>
      have ih := ih fun z hz => h z (List.mem_cons_of_mem tmp hz)
      rw [includeLoop]
      split
      · exact ih run
      · obtain ⟨mid, hmid⟩ := h tmp List.mem_cons_self run
        rw [hmid]
        exact ih _

theorem exists_least {P : Nat → Text → Prop} (hmono : ∀ n m x, n ≤ m → P n x → P m x)
    (h : ∀ x ∈ sections, ∃ n, P n x) : ∃ n, ∀ x ∈ sections, P n x := by
  induction sections with
  | nil => exact ⟨0, nofun⟩
  | cons y sections ih =>
      obtain ⟨n, hn⟩ := h y List.mem_cons_self
      obtain ⟨m, hm⟩ := ih fun x hx => h x (List.mem_cons_of_mem y hx)
      refine ⟨max n m, fun x hx => ?_⟩
      cases List.mem_cons.mp hx with
      | inl heq => exact heq ▸ hmono n _ y (Nat.le_max_left n m) hn
      | inr hx => exact hmono m _ x (Nat.le_max_right n m) (hm x hx)

theorem endsWithin_mono (n m : Nat) (x : Text) (hnm : n ≤ m) (h : EndsWithin cfg n x) : EndsWithin cfg m x :=
  fun fuel hfuel run => h fuel (Nat.le_trans hnm hfuel) run

theorem exists_endsWithin (h : Acc (Next (includesections cfg)) section_) :
    ∃ n, EndsWithin cfg n section_ := by
  induction h with
  | intro x _ ih =>
      obtain ⟨n, hn⟩ := exists_least endsWithin_mono ih
      refine ⟨n + 1, fun fuel hfuel run => ?_⟩
      obtain ⟨fuel, rfl⟩ : ∃ k, fuel = k + 1 := ⟨fuel - 1, by omega⟩
      obtain ⟨mid, hmid⟩ :=
        includeLoop_ends (fun z hz => hn z hz fuel (by omega)) run
      refine ⟨{ mid with jail := mid.jail ++ [x] }, ?_⟩
      rw [handleCfgSection, hmid]
      rfl

theorem activateLoop_ends {fuel : Nat}
    (h : ∀ r ∈ args.filter cfg.hasSection, ∀ run,
      ∃ run', handleCfgSection cfg logBody fuel r run = some run')
    (run : InitRun (List Text)) :
    ∃ run', activateLoop cfg logBody fuel args run = some run' := by
  induction args generalizing run with
  | nil => exact ⟨run, rfl⟩
  | cons section_ args ih =>
      rw [activateLoop]
      by_cases hsection : cfg.hasSection section_ = true
      · rw [List.filter_cons_of_pos hsection] at h
        rw [if_pos hsection]
        obtain ⟨mid, hmid⟩ := h section_ List.mem_cons_self run
        rw [hmid]
        exact ih (fun r hr => h r (List.mem_cons_of_mem section_ hr)) _
      · rw [List.filter_cons_of_neg hsection] at h
        rw [if_neg hsection]
        exact ih h run

theorem includesections_finite (cfg : Cfg) (x : Text) :
    includesections cfg x ⊆ cfg.flatMap fun s => includesections cfg s.name := by
  intro y hy
  have hname : ∃ s ∈ cfg, s.name = x := by
    by_contra hnone
    have hfind : (cfg.find? fun s => s.name == x) = none := by
      rw [List.find?_eq_none]
      intro s hs heq
      exact hnone ⟨s, hs, beq_iff_eq.mp heq⟩
    rw [includesections, configGetOptionAsList, Cfg.get, hfind] at hy
    cases hy
  obtain ⟨s, hs, heq⟩ := hname
  exact List.mem_flatMap.mpr ⟨s, hs, heq ▸ hy⟩

end

/-- The body of each section that the arguments reach runs once, behind those it includes. -/
def ProcessesOnce (cfg : Cfg) (args : List Text) : Prop :=
  ∃ fuel run, activateConfig cfg logBody fuel args [] = some run ∧
    (∀ x, ReachedFrom (includesections cfg) (args.filter cfg.hasSection) x →
      run.jail.count x = 1) ∧
    ((∀ x, ¬ Relation.TransGen (Next (includesections cfg)) x x) →
      BelowFirst (includesections cfg) run.jail)

/-- No circle of includes is reached, no section is named twice, and none that is named is
included too. -/
structure IncludesOnce (cfg : Cfg) (args : List Text) : Prop where
  circle : ∀ x, ReachedFrom (includesections cfg) (args.filter cfg.hasSection) x →
    ¬ Relation.TransGen (Next (includesections cfg)) x x
  named : (args.filter cfg.hasSection).Nodup
  included : ∀ r ∈ args.filter cfg.hasSection, ∀ x,
    ReachedFrom (includesections cfg) (args.filter cfg.hasSection) x →
      r ∉ includesections cfg x

section

variable {cfg : Cfg} {roots args : List Text} {run : InitRun (List Text)}

theorem sectionsDone_start (cfg : Cfg) : SectionsDone cfg ⟨[], []⟩ :=
  ⟨List.nodup_nil, nofun, nofun, List.nil_subset _, fun pre x post heq => by simp at heq⟩

/-- The sections marked are those that a section reached includes. -/
theorem mem_didsections_iff (h : Activated cfg roots ⟨[], []⟩ run) (x : Text) :
    x ∈ run.didsections ↔
      ∃ y, ReachedFrom (includesections cfg) roots y ∧ x ∈ includesections cfg y := by
  obtain ⟨marks, hdid, hbelow, -⟩ := h.marks
  constructor
  · intro hx
    rw [hdid, List.nil_append] at hx
    obtain ⟨r, hr, hstep⟩ := hbelow x hx
    obtain ⟨y, hxy, hyr⟩ := Relation.TransGen.head'_iff.mp hstep
    exact ⟨y, ⟨r, hr, hyr⟩, hxy⟩
  · intro hx
    obtain ⟨y, ⟨r, hr, hyr⟩, hxy⟩ := hx
    have hmem : y ∈ roots ∨ y ∈ run.didsections := by
      induction hyr using Relation.ReflTransGen.head_induction_on generalizing x with
      | refl => exact Or.inl hr
      | head hstep _ ih =>
          cases ih _ hstep with
          | inl hroot => exact Or.inr (h.includes _ hroot hstep)
          | inr hdone => exact Or.inr (h.after.closed _ hdone hstep)
    cases hmem with
    | inl hroot => exact h.includes y hroot hxy
    | inr hdone => exact h.after.closed y hdone hxy

theorem count_jail (h : Activated cfg roots ⟨[], []⟩ run) (x : Text) :
    run.jail.count x = run.didsections.count x + roots.count x := by
  obtain ⟨marks, hdid, -, hcount⟩ := h.marks
  rw [hdid, List.nil_append, hcount]
  simp

theorem mem_log_iff (h : Activated cfg roots ⟨[], []⟩ run) (x : Text) :
    x ∈ run.jail ↔ ReachedFrom (includesections cfg) roots x := by
  have hmem : x ∈ run.jail ↔ x ∈ run.didsections ∨ x ∈ roots := by
    rw [← List.count_pos_iff, count_jail h, Nat.add_pos_iff_pos_or_pos, List.count_pos_iff,
      List.count_pos_iff]
  rw [hmem, mem_didsections_iff h]
  constructor
  · intro hx
    cases hx with
    | inl hx =>
        obtain ⟨y, hy, hxy⟩ := hx
        exact reachedFrom_next hy hxy
    | inr hx => exact reachedFrom_root hx
  · intro hx
    obtain ⟨r, hr, hxr⟩ := hx
    cases Relation.ReflTransGen.cases_head hxr with
    | inl heq => exact Or.inr (heq ▸ hr)
    | inr hstep =>
        obtain ⟨y, hxy, hyr⟩ := hstep
        exact Or.inl ⟨y, ⟨r, hr, hyr⟩, hxy⟩

theorem exists_log (h : ∀ x, ReachedFrom (includesections cfg) (args.filter cfg.hasSection) x →
    ¬ Relation.TransGen (Next (includesections cfg)) x x) :
    ∃ fuel run, activateConfig cfg logBody fuel args [] = some run := by
  have hacc : ∀ r ∈ args.filter cfg.hasSection, ∃ n, EndsWithin cfg n r := fun r hr =>
    exists_endsWithin (acc_of_no_circle (includesections_finite cfg) fun y hy => h y ⟨r, hr, hy⟩)
  obtain ⟨fuel, hfuel⟩ := exists_least endsWithin_mono hacc
  obtain ⟨run, hrun⟩ := activateLoop_ends
    (fun r hr => hfuel r hr fuel (Nat.le_refl fuel)) ⟨[], []⟩
  exact ⟨fuel, run, hrun⟩

/-- When every section runs once. -/
theorem processesOnce_iff (cfg : Cfg) (args : List Text) :
    ProcessesOnce cfg args ↔ IncludesOnce cfg args := by
  constructor
  · intro h
    obtain ⟨fuel, run, hrun, honce, -⟩ := h
    have hdone := activateLoop_activated (sectionsDone_start cfg) hrun
    refine ⟨?_, ?_, ?_⟩
    · intro x hx
      obtain ⟨r, hr, hxr⟩ := hx
      exact no_circle_of_acc (acc_below (hdone.ends r hr) hxr)
    · rw [List.nodup_iff_count_le_one]
      intro r
      by_cases hr : r ∈ args.filter cfg.hasSection
      · have hone := honce r (reachedFrom_root hr)
        rw [count_jail hdone] at hone
        omega
      · rw [List.count_eq_zero_of_not_mem hr]
        exact Nat.zero_le 1
    · intro r hr x hx hmem
      have hone := honce r (reachedFrom_root hr)
      have hmark := (mem_didsections_iff hdone r).mpr ⟨x, hx, hmem⟩
      have hpos := List.count_pos_iff.mpr hmark
      have hpos' := List.count_pos_iff.mpr hr
      rw [count_jail hdone] at hone
      omega
  · intro h
    obtain ⟨fuel, run, hrun⟩ := exists_log h.circle
    have hdone := activateLoop_activated (sectionsDone_start cfg) hrun
    refine ⟨fuel, run, hrun, ?_, fun _ => hdone.after.ordered⟩
    intro x hx
    rw [count_jail hdone]
    by_cases hroot : x ∈ args.filter cfg.hasSection
    · have hnot : x ∉ run.didsections := by
        intro hmark
        obtain ⟨y, hy, hxy⟩ := (mem_didsections_iff hdone x).mp hmark
        exact h.included x hroot y hy hxy
      rw [List.count_eq_zero_of_not_mem hnot, List.count_eq_one_of_mem h.named hroot]
    · have hrun := (mem_log_iff hdone x).mpr hx
      have hmark : x ∈ run.didsections := by
        have hpos := List.count_pos_iff.mpr hrun
        rw [count_jail hdone, List.count_eq_zero_of_not_mem hroot] at hpos
        exact List.count_pos_iff.mp hpos
      rw [List.count_eq_zero_of_not_mem hroot, List.count_eq_one_of_mem hdone.after.once hmark]

theorem section_runs_twice :
    ¬ ProcessesOnce [⟨"ssh".toList, []⟩] ["ssh".toList, "ssh".toList] := by
  intro h
  obtain ⟨fuel, run, hrun, honce, -⟩ := h
  have hroot : ReachedFrom (includesections [⟨"ssh".toList, []⟩])
      (["ssh".toList, "ssh".toList].filter (Cfg.hasSection [⟨"ssh".toList, []⟩]))
      "ssh".toList := reachedFrom_root (by decide +kernel)
  have hone := honce _ hroot
  cases fuel with
  | zero => cases hrun
  | succ fuel =>
      cases hrun
      revert hone
      decide +kernel

end

end Jailkit.Tools
