import Jailkit.Wrapper.Chrootlaunch
import Jailkit.Wrapper.Chrootsh
import Jailkit.Wrapper.ProcmailWrapper
import Jailkit.Wrapper.Uchroot
import Mathlib.Data.Finset.Lattice.Fold
import Mathlib.Data.Fintype.EquivFin
import Mathlib.Data.Nat.Find
import Mathlib.Order.Lattice.Nat

/-!
Which descriptors are open when the code that closes them is finished.
-/
namespace Jailkit.Wrapper

def EBADF : Nat := 9

/-- The descriptors of a process, and how often the close of each is interrupted. -/
structure Descriptors where
  limit : Nat
  opened : Finset Nat
  interrupts : Nat → Nat
  /-- The interrupts that the close of a newly opened descriptor will get. -/
  fresh : Nat

/-- `close` of an open descriptor succeeds after the interrupts it gets, and `open` gives
the lowest descriptor that is free, or fails. -/
def Descriptors.kernel : Prog.Machine Call Res Descriptors := fun s c r s' =>
  match c, r with
  | .getdtablesize, r => r = s.limit ∧ s' = s
  | .close fd, r =>
      if fd ∈ s.opened then
        match s.interrupts fd with
        | 0 => r = none ∧ s' = { s with opened := s.opened.erase fd }
        | n + 1 => r = some EINTR ∧ s' = { s with interrupts := Function.update s.interrupts fd n }
      else r = some EBADF ∧ s' = s
  | .openNull, r =>
      match r with
      | none => s' = s
      | some fd =>
          fd ∉ s.opened ∧ (∀ d, d < fd → d ∈ s.opened) ∧
            s' = { s with
              opened := insert fd s.opened
              interrupts := Function.update s.interrupts fd s.fresh }
  | _, _ => s' = s

/-- The programs that take a process into a jail. -/
inductive Entrance where
  | chrootsh
  | uchroot
  | chrootlaunch
  | procmailwrapper
  deriving DecidableEq, Repr

def Entrance.reopens : Entrance → Bool
  | .chrootsh | .uchroot => true
  | .chrootlaunch | .procmailwrapper => false

/-- The loop of each over the descriptors. The first three have the same one. -/
def Entrance.closing (fuel : Nat) : Entrance → Cmd Unit
  | .chrootsh | .uchroot | .chrootlaunch => chrootlaunchCloseDescriptors fuel
  | .procmailwrapper => do closeDownTo fuel (← perform .getdtablesize)

/-- In each run the loops end, and after them this holds. -/
def Finishes (p : Cmd Unit) (Q : Descriptors → Prop) (s : Descriptors) : Prop :=
  p.Always Descriptors.kernel (fun _ c => c ≠ .hang) (fun _ s' => Q s') s

/-- Nothing above 2 is open after the loop, and after the one over `/dev/null` the three
descriptors are. -/
def Entrance.Isolates (w : Entrance) (fuel : Nat) (s : Descriptors) : Prop :=
  Finishes (w.closing fuel) (fun s' => ∀ d ∈ s'.opened, d ≤ 2) s ∧
    (w.reopens = true → Finishes (closeDescriptors fuel) (fun s' => s'.opened = {0, 1, 2}) s)

/-- The runs end in one state only. -/
def Ends (p : Cmd Unit) (s s' : Descriptors) : Prop := ∀ Q, Finishes p Q s ↔ Q s'

/-- The same descriptors but for some that have been closed. -/
structure Descriptors.Later (s s' : Descriptors) : Prop where
  limit : s'.limit = s.limit
  fresh : s'.fresh = s.fresh
  interrupts : ∀ d, s'.interrupts d ≤ s.interrupts d

theorem Descriptors.Later.refl (s : Descriptors) : s.Later s :=
  ⟨rfl, rfl, fun _ => Nat.le_refl _⟩

theorem Descriptors.Later.trans {s s' s'' : Descriptors} (h : s.Later s') (h' : s'.Later s'') :
    s.Later s'' :=
  ⟨h'.limit.trans h.limit, h'.fresh.trans h.fresh,
    fun d => Nat.le_trans (h'.interrupts d) (h.interrupts d)⟩

theorem ends_pure (s : Descriptors) : Ends (pure ()) s s := fun _ => Iff.rfl

theorem ends_bind {p q : Cmd Unit} {s s' s'' : Descriptors} (hp : Ends p s s')
    (hq : Ends q s' s'') : Ends (p >>= fun _ => q) s s'' := by
  intro Q
  rw [Finishes, Prog.always_bind]
  exact (hp _).trans (hq Q)

/-- A call that can be answered in one way only. -/
theorem finishes_perform {c : Call} (r : Res c) {f : Res c → Cmd Unit} {s : Descriptors}
    (s' : Descriptors) (hc : c ≠ .hang)
    (h : ∀ r' s'', Descriptors.kernel s c r' s'' ↔ r' = r ∧ s'' = s')
    (Q : Descriptors → Prop) :
    Finishes (perform c >>= f) Q s ↔ Finishes (f r) Q s' := by
  constructor
  · intro hall
    exact hall.2 r s' ((h r s').mpr ⟨rfl, rfl⟩)
  · intro hall
    refine ⟨hc, fun r' s'' hk => ?_⟩
    obtain ⟨hr, hs⟩ := (h r' s'').mp hk
    rw [hr, hs]
    exact hall

/-- The bound on the retries is above what any open descriptor needs. -/
def Enough (fuel : Nat) (s : Descriptors) : Prop :=
  0 < fuel ∧ ∀ d ∈ s.opened, s.interrupts d < fuel

theorem Enough.later {fuel : Nat} {s s' : Descriptors} (h : Enough fuel s) (hl : s.Later s')
    (hsub : s'.opened ⊆ s.opened) : Enough fuel s' :=
  ⟨h.1, fun d hd => Nat.lt_of_le_of_lt (hl.interrupts d) (h.2 d (hsub hd))⟩

theorem closeRetry_ends (i fuel : Nat) {s : Descriptors} (hpos : 0 < fuel)
    (h : i ∈ s.opened → s.interrupts i < fuel) :
    ∃ s', Ends (closeRetry i fuel) s s' ∧ s'.opened = s.opened.erase i ∧ s.Later s' := by
  induction fuel generalizing s with
  | zero => exact absurd hpos (Nat.not_lt_zero _)
  | succ fuel ih =>
      have hne : Call.close i ≠ .hang := by simp
      by_cases hi : i ∈ s.opened
      · have hlt := h hi
        cases hn : s.interrupts i with
        | zero =>
            let s₁ := { s with opened := s.opened.erase i }
            refine ⟨s₁, fun Q => ?_, rfl, rfl, rfl, fun _ => Nat.le_refl _⟩
            rw [closeRetry, finishes_perform none s₁ hne]
            · exact Iff.rfl
            · intro r' s''
              simp [Descriptors.kernel, hi, hn, s₁]
        | succ n =>
            let s₁ := { s with interrupts := Function.update s.interrupts i n }
            have hlater : s.Later s₁ := by
              refine ⟨rfl, rfl, fun d => ?_⟩
              by_cases hd : d = i
              · simp [s₁, hd, hn]
              · simp [s₁, hd]
            have hs₁ : s₁.interrupts i = n := Function.update_self ..
            obtain ⟨s', hends, hopen, hlater'⟩ := @ih s₁ (by omega) fun _ => by omega
            refine ⟨s', fun Q => ?_, hopen, hlater.trans hlater'⟩
            rw [closeRetry, finishes_perform (some EINTR) s₁ hne]
            · exact hends Q
            · intro r' s''
              simp [Descriptors.kernel, hi, hn, s₁]
      · refine ⟨s, fun Q => ?_, (Finset.erase_eq_of_notMem hi).symm, .refl s⟩
        rw [closeRetry, finishes_perform (some EBADF) s hne]
        · exact Iff.rfl
        · intro r' s''
          simp [Descriptors.kernel, hi]

/-- A loop that closes one descriptor and goes on with those that `rest` leaves. -/
theorem closeThen_ends {i fuel : Nat} {s : Descriptors} {rest : Cmd Unit} {keep : Nat → Prop}
    [DecidablePred keep] (h : Enough fuel s)
    (hrest : ∀ s₁, Enough fuel s₁ →
      ∃ s', Ends rest s₁ s' ∧ s'.opened = s₁.opened.filter keep ∧ s₁.Later s') :
    ∃ s', Ends (closeRetry i fuel >>= fun _ => rest) s s' ∧
      s'.opened = s.opened.filter (fun d => d ≠ i ∧ keep d) ∧ s.Later s' := by
  obtain ⟨s₁, hends, hopen, hlater⟩ := closeRetry_ends i fuel h.1 (h.2 i)
  have hsub : s₁.opened ⊆ s.opened := by
    rw [hopen]
    exact Finset.erase_subset i _
  obtain ⟨s', hends', hopen', hlater'⟩ := hrest s₁ (h.later hlater hsub)
  refine ⟨s', ends_bind hends hends', ?_, hlater.trans hlater'⟩
  ext d
  simp [hopen', hopen]
  tauto

/-- `while (--i > 2)` leaves what is at most 2. -/
theorem closeLoop_ends {fuel : Nat} {s : Descriptors} (h : Enough fuel s) (limit : Nat) :
    ∃ s', Ends (closeLoop fuel limit) s s' ∧
      s'.opened = s.opened.filter (fun d => d ≤ 2 ∨ limit ≤ d) ∧ s.Later s' := by
  induction limit generalizing s with
  | zero => exact ⟨s, ends_pure s, by simp, .refl s⟩
  | succ i ih =>
      rw [closeLoop]
      split
      next hi =>
        obtain ⟨s', hends, hopen, hlater⟩ := closeThen_ends (i := i) h fun s₁ h₁ => ih h₁
        refine ⟨s', hends, ?_, hlater⟩
        rw [hopen]
        apply Finset.filter_congr
        intro d _
        omega
      next hi =>
        refine ⟨s, ends_pure s, ?_, .refl s⟩
        rw [Finset.filter_true_of_mem]
        intro d _
        omega

/-- `for (i=getdtablesize();i>3;i--)` leaves what is at most 3. -/
theorem closeDownTo_ends {fuel : Nat} {s : Descriptors} (h : Enough fuel s) (limit : Nat) :
    ∃ s', Ends (closeDownTo fuel limit) s s' ∧
      s'.opened = s.opened.filter (fun d => d ≤ 3 ∨ limit < d) ∧ s.Later s' := by
  induction limit generalizing s with
  | zero =>
      refine ⟨s, ends_pure s, ?_, .refl s⟩
      rw [Finset.filter_true_of_mem]
      intro d _
      omega
  | succ i ih =>
      rw [closeDownTo]
      split
      next hi =>
        obtain ⟨s', hends, hopen, hlater⟩ := closeThen_ends (i := i + 1) h fun s₁ h₁ => ih h₁
        refine ⟨s', hends, ?_, hlater⟩
        rw [hopen]
        apply Finset.filter_congr
        intro d _
        omega
      next hi =>
        refine ⟨s, ends_pure s, ?_, .refl s⟩
        rw [Finset.filter_true_of_mem]
        intro d _
        omega

theorem exists_lowest_free (opened : Finset Nat) :
    ∃ fd, fd ∉ opened ∧ ∀ d, d < fd → d ∈ opened := by
  have hfree : ∃ fd, fd ∉ opened := Infinite.exists_notMem_finset opened
  refine ⟨Nat.find hfree, Nat.find_spec hfree, fun d hd => ?_⟩
  exact not_not.mp (Nat.find_min hfree hd)

def Descriptors.opening (s : Descriptors) (fd : Nat) : Descriptors :=
  { s with
    opened := insert fd s.opened
    interrupts := Function.update s.interrupts fd s.fresh }

/-- The close of a descriptor above the three is tried once. -/
theorem closeOnce_finishes {s : Descriptors} {fd : Nat} (hfree : fd ∉ s.opened)
    (hstd : s.opened = {0, 1, 2}) :
    Finishes (do let _ ← perform (.close fd)) (fun s' => s'.opened = {0, 1, 2})
      (s.opening fd) ↔ s.fresh = 0 := by
  have hmem : fd ∈ (s.opening fd).opened := Finset.mem_insert_self fd s.opened
  have hfd : (s.opening fd).interrupts fd = s.fresh := Function.update_self ..
  cases hn : s.fresh with
  | zero =>
      refine ⟨fun _ => rfl, fun _ => ⟨by simp, fun r s' hk => ?_⟩⟩
      simp only [Descriptors.kernel, hmem, hfd, hn, if_true] at hk
      have hopen : (s.opening fd).opened.erase fd = {0, 1, 2} := by
        rw [Descriptors.opening, Finset.erase_insert hfree, hstd]
      rw [hk.2]
      exact hopen
  | succ n =>
      refine ⟨fun hall => ?_, fun h => absurd h (Nat.succ_ne_zero n)⟩
      let s₂ := { s.opening fd with
        interrupts := Function.update (s.opening fd).interrupts fd n }
      have hk : Descriptors.kernel (s.opening fd) (.close fd) (some EINTR) s₂ := by
        simp [Descriptors.kernel, hmem, hfd, hn, s₂]
      have hopen : insert fd s.opened = {0, 1, 2} := hall.2 (some EINTR) s₂ hk
      rw [← hstd] at hopen
      exact absurd (hopen ▸ Finset.mem_insert_self fd s.opened) hfree

/-- The `/dev/null` loop ends. It leaves the three descriptors, unless the close of the one
that it opened above them is interrupted: this close is not tried again. -/
theorem reopenStandard_finishes {fuel : Nat} {s : Descriptors} (hsub : s.opened ⊆ {0, 1, 2})
    (hfuel : ({0, 1, 2} \ s.opened).card < fuel) :
    Finishes (reopenStandard fuel) (fun s' => s'.opened = {0, 1, 2}) s ↔ s.fresh = 0 := by
  induction fuel generalizing s with
  | zero => exact absurd hfuel (Nat.not_lt_zero _)
  | succ fuel ih =>
      have hround : ∀ fd, fd ∉ s.opened → (∀ d, d < fd → d ∈ s.opened) →
          (Finishes (if fd > 2 then do let _ ← perform (.close fd) else reopenStandard fuel)
            (fun s' => s'.opened = {0, 1, 2}) (s.opening fd) ↔ s.fresh = 0) := by
        intro fd hfree hlow
        split
        next hfd =>
          apply closeOnce_finishes hfree
          apply Finset.Subset.antisymm hsub
          intro d hd
          refine hlow d (Nat.lt_of_le_of_lt ?_ hfd)
          simp at hd
          omega
        next hfd =>
          have hin : fd ∈ ({0, 1, 2} : Finset Nat) := by
            simp
            omega
          apply ih
          · exact Finset.insert_subset hin hsub
          · have hless : ({0, 1, 2} \ (s.opening fd).opened).card <
                ({0, 1, 2} \ s.opened).card := by
              apply Finset.card_lt_card
              rw [Finset.ssubset_iff_of_subset]
              · exact ⟨fd, Finset.mem_sdiff.mpr ⟨hin, hfree⟩, by simp [Descriptors.opening]⟩
              · exact Finset.sdiff_subset_sdiff (Finset.Subset.refl _) (Finset.subset_insert fd _)
            omega
      rw [reopenStandard]
      constructor
      · intro hall
        obtain ⟨fd, hfree, hlow⟩ := exists_lowest_free s.opened
        exact (hround fd hfree hlow).mp (hall.2 (some fd) (s.opening fd) ⟨hfree, hlow, rfl⟩)
      · intro hfresh
        refine ⟨by simp, fun r s' hk => ?_⟩
        cases r with
        | none => exact ⟨by simp, fun r => r.elim⟩
        | some fd =>
            obtain ⟨hfree, hlow, hs'⟩ := hk
            rw [hs']
            exact (hround fd hfree hlow).mpr hfresh

theorem finishes_getdtablesize (f : Nat → Cmd Unit) (Q : Descriptors → Prop) (s : Descriptors) :
    Finishes (perform .getdtablesize >>= f) Q s ↔ Finishes (f s.limit) Q s :=
  @finishes_perform .getdtablesize s.limit f s s (by simp) (fun _ _ => Iff.rfl) Q

/-- The loop of three of the programs leaves the descriptors up to 2 that were open. -/
theorem chrootlaunchCloseDescriptors_ends {fuel : Nat} {s : Descriptors} (h : Enough fuel s)
    (hlimit : 4 ≤ s.limit) (hbelow : ∀ d ∈ s.opened, d < s.limit) :
    ∃ s', Ends (chrootlaunchCloseDescriptors fuel) s s' ∧ s'.opened ⊆ {0, 1, 2} ∧
      s'.fresh = s.fresh := by
  obtain ⟨s', hends, hopen, hlater⟩ := closeLoop_ends h s.limit
  refine ⟨s', fun Q => ?_, ?_, hlater.fresh⟩
  · have hne : s.limit ≠ 0 := by omega
    rw [chrootlaunchCloseDescriptors, finishes_getdtablesize, if_neg hne]
    exact hends Q
  · intro d hd
    rw [hopen, Finset.mem_filter] at hd
    have hlt := hbelow d hd.1
    simp
    omega

theorem closeDescriptors_finishes {fuel : Nat} {s : Descriptors} (h : Enough fuel s)
    (hfuel : 4 ≤ fuel) (hlimit : 4 ≤ s.limit) (hbelow : ∀ d ∈ s.opened, d < s.limit) :
    Finishes (closeDescriptors fuel) (fun s' => s'.opened = {0, 1, 2}) s ↔ s.fresh = 0 := by
  have hsplit : closeDescriptors fuel =
      chrootlaunchCloseDescriptors fuel >>= fun _ => reopenStandard fuel := rfl
  obtain ⟨s', hends, hsub, hfresh⟩ := chrootlaunchCloseDescriptors_ends h hlimit hbelow
  have hcard : ({0, 1, 2} \ s'.opened).card < fuel := by
    have hle := Finset.card_le_card (Finset.sdiff_subset (s := {0, 1, 2}) (t := s'.opened))
    have hthree : ({0, 1, 2} : Finset Nat).card = 3 := rfl
    omega
  rw [hsplit, Finishes, Prog.always_bind, ← hfresh]
  exact (hends _).trans (reopenStandard_finishes hsub hcard)

theorem procmailwrapper_closing_finishes {fuel : Nat} {s : Descriptors} (h : Enough fuel s)
    (hbelow : ∀ d ∈ s.opened, d < s.limit) :
    Finishes (Entrance.procmailwrapper.closing fuel) (fun s' => ∀ d ∈ s'.opened, d ≤ 2) s ↔
      3 ∉ s.opened := by
  obtain ⟨s', hends, hopen, _⟩ := closeDownTo_ends h s.limit
  rw [Entrance.closing, finishes_getdtablesize, hends]
  constructor
  · intro hall hthree
    have hmem : 3 ∈ s'.opened := by
      rw [hopen, Finset.mem_filter]
      exact ⟨hthree, Or.inl (Nat.le_refl 3)⟩
    exact absurd (hall 3 hmem) (by decide)
  · intro hthree d hd
    rw [hopen, Finset.mem_filter] at hd
    have hlt := hbelow d hd.1
    have hne : d ≠ 3 := fun heq => hthree (heq ▸ hd.1)
    omega

theorem isolates_iff {fuel : Nat} {s : Descriptors} (w : Entrance) (h : Enough fuel s)
    (hfuel : 4 ≤ fuel) (hlimit : 4 ≤ s.limit) (hbelow : ∀ d ∈ s.opened, d < s.limit) :
    w.Isolates fuel s ↔
      (w = .procmailwrapper → 3 ∉ s.opened) ∧ (w.reopens = true → s.fresh = 0) := by
  have hloop : Finishes (chrootlaunchCloseDescriptors fuel) (fun s' => ∀ d ∈ s'.opened, d ≤ 2)
      s := by
    obtain ⟨s', hends, hsub, _⟩ := chrootlaunchCloseDescriptors_ends h hlimit hbelow
    refine (hends _).mpr fun d hd => ?_
    have hin := hsub hd
    simp at hin
    omega
  have hreopen := closeDescriptors_finishes h hfuel hlimit hbelow
  have hprocmail := procmailwrapper_closing_finishes h hbelow
  cases w with
  | chrootsh => simp [Entrance.Isolates, Entrance.closing, Entrance.reopens, hloop, hreopen]
  | uchroot => simp [Entrance.Isolates, Entrance.closing, Entrance.reopens, hloop, hreopen]
  | chrootlaunch => simp [Entrance.Isolates, Entrance.closing, Entrance.reopens, hloop]
  | procmailwrapper => simp [Entrance.Isolates, Entrance.reopens, hprocmail]

/-- A bound on the retries that is enough. -/
def Descriptors.patience (s : Descriptors) : Nat := s.opened.sup s.interrupts + 4

theorem enough_patience {fuel : Nat} {s : Descriptors} (h : s.patience ≤ fuel) :
    Enough fuel s ∧ 4 ≤ fuel := by
  rw [Descriptors.patience] at h
  refine ⟨⟨by omega, fun d hd => ?_⟩, by omega⟩
  have hle := Finset.le_sup (f := s.interrupts) hd
  omega

/-- The process enters its jail with the standard descriptors only, exactly when it is not
jk_procmailwrapper with descriptor 3 open, nor one of the two that open `/dev/null` with the
close of the last of these descriptors interrupted. -/
theorem closes_descriptors_iff (w : Entrance) (s : Descriptors) (hlimit : 4 ≤ s.limit)
    (hbelow : ∀ d ∈ s.opened, d < s.limit) :
    (∃ n, ∀ fuel, n ≤ fuel → w.Isolates fuel s) ↔
      (w = .procmailwrapper → 3 ∉ s.opened) ∧ (w.reopens = true → s.fresh = 0) := by
  constructor
  · intro ⟨n, hn⟩
    obtain ⟨henough, hfour⟩ := enough_patience (Nat.le_max_right n s.patience)
    exact (isolates_iff w henough hfour hlimit hbelow).mp (hn _ (Nat.le_max_left n _))
  · intro hcond
    refine ⟨s.patience, fun fuel hfuel => ?_⟩
    obtain ⟨henough, hfour⟩ := enough_patience hfuel
    exact (isolates_iff w henough hfour hlimit hbelow).mpr hcond

def inherited (opened : Finset Nat) (fresh : Nat) : Descriptors where
  limit := 1024
  opened := opened
  interrupts := fun _ => 1
  fresh := fresh

theorem closes_descriptors_iff_seven :
    (∃ n, ∀ fuel, n ≤ fuel → Entrance.procmailwrapper.Isolates fuel (inherited {0, 1, 7} 0)) ↔
      (Entrance.procmailwrapper = .procmailwrapper → 3 ∉ ({0, 1, 7} : Finset Nat)) ∧
        (Entrance.procmailwrapper.reopens = true → 0 = 0) :=
  closes_descriptors_iff .procmailwrapper (inherited {0, 1, 7} 0) (by decide) (by decide)

/-- Descriptor 3 stays open behind the loop of jk_procmailwrapper. -/
theorem procmailwrapper_keeps_three :
    ¬ ∃ n, ∀ fuel, n ≤ fuel →
      Entrance.procmailwrapper.Isolates fuel (inherited {0, 1, 2, 3} 0) := by
  intro ⟨n, hn⟩
  let s := inherited {0, 1, 2, 3} 0
  obtain ⟨henough, hfour⟩ := enough_patience (Nat.le_max_right n s.patience)
  have hnot := (isolates_iff .procmailwrapper henough hfour (by decide) (by decide)).mp
    (hn _ (Nat.le_max_left n _))
  exact hnot.1 rfl (by decide)

end Jailkit.Wrapper
