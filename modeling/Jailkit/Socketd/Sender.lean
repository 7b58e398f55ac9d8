import Jailkit.Socketd.Config
import Jailkit.Socketd.Limiter

/-!
When the limiter leaves a sender alone who keeps to the base rate.
-/
namespace Jailkit.Socketd

open Jailkit.Traffic Jailkit.Traffic.Event

/-- The instant lies in the closed window of this length; no window is as long as a NaN. -/
def Interval.covers (start : ℚ) (time : Int) : Interval → Bool
  | seconds q => start ≤ time ∧ (time : ℚ) ≤ start + q * 1000000
  | infinite _ => false
  | nan => false

def bytesWithin (i : Interval) (start : ℚ) : List Arrival → Nat
  | [] => 0
  | a :: as => (if i.covers start a.sent.micros then a.recvfrom.toNat else 0) + bytesWithin i start as

/-- In each window of the length of the interval the datagrams have `base` bytes at most. -/
def WellBehaved (r : FinalRates) (arrivals : List Arrival) : Prop :=
  ∀ start, bytesWithin r.interval start arrivals ≤ r.base

/-- The clock does not go back. -/
structure PassForward (now : Int) (a : Arrival) : Prop where
  sent : now ≤ a.sent.micros
  checked : a.sent.micros ≤ a.checked.micros
  cleared : a.checked.micros ≤ a.cleared.micros
  restarted : a.cleared.micros ≤ a.restarted.micros

def Forward : Int → List Arrival → Prop
  | _, [] => True
  | now, a :: as => PassForward now a ∧ Forward a.restarted.micros as

structure Made (intOfNan : Nat) (r : FinalRates) (sl : Socketlink) : Prop where
  normrate : sl.normrate = r.base
  peakrate : sl.peakrate = r.peak
  roundtime : sl.roundtime = r.interval.roundtime intOfNan

/-- Whatever `lastwaspeak` was, a well-behaved sender never makes the limiter sleep. -/
def NeverDelayed (intOfNan : Nat) (r : FinalRates) : Prop :=
  ∀ (sl : Socketlink) (now : Int) (arrivals : List Arrival), Made intOfNan r sl →
    sl.lastsize = 0 → sl.lastreset.micros ≤ now →
    (∀ a ∈ arrivals, a.recvfrom ≤ bufsize) → Forward now arrivals → WellBehaved r arrivals →
    ∀ d, pause d ∉ socketlinkHandle sl arrivals

section

variable {sl : Socketlink} {a : Arrival}

/-- Within the round and the base rate a datagram is only counted. -/
theorem socketlinkPass_within (hpos : 0 < a.recvfrom) (hpeak : sl.normrate ≤ sl.peakrate)
    (hfit : sl.lastsize + a.recvfrom.toNat < 2 ^ 32)
    (hsize : sl.lastsize + a.recvfrom.toNat ≤ sl.normrate)
    (hshort : timediff sl.lastreset a.checked ≤ sl.roundtime) :
    socketlinkPass sl a =
      ({ sl with lasttime := a.checked, lastsize := sl.lastsize + a.recvfrom.toNat },
        [forward a.recvfrom.toNat a.sent.micros]) := by
  rw [socketlinkPass, if_neg (by omega)]
  simp only [accountDatagram, Nat.mod_eq_of_lt hfit]
  rw [if_neg (by omega), if_neg (by omega), if_neg (by omega)]

/-- At the end of the round there is nothing left to sleep. -/
theorem sleepround_late (h : (sl.roundtime : Int) ≤ timediff sl.lastreset a.checked) :
    sleepround (sl.roundtime - timediff sl.lastreset a.checked) = [] := by
  rw [sleepround, if_neg (by omega)]

theorem socketlinkPass_late (hpos : 0 < a.recvfrom)
    (hlong : (sl.roundtime : Int) < timediff sl.lastreset a.checked) :
    ∃ peak, socketlinkPass sl a =
      ({ sl with
          lasttime := a.checked
          lastsize := 0
          lastreset := a.restarted
          lastwaspeak := peak },
        [forward a.recvfrom.toNat a.sent.micros, reset a.cleared.micros]) := by
  rw [socketlinkPass, if_neg (by omega)]
  generalize (sl.lastsize + a.recvfrom.toNat) % 2 ^ 32 = size
  have hsleep := sleepround_late (Int.le_of_lt hlong)
  simp only [accountDatagram, if_pos hlong, sleepAndReset, resetRound, hsleep]
  split
  · exact ⟨true, rfl⟩
  · split
    · exact ⟨true, rfl⟩
    · exact ⟨false, rfl⟩

/-- With a round of no length there is never anything to sleep. -/
theorem socketlinkPass_zero (hround : sl.roundtime = 0)
    (hpast : sl.lastreset.micros ≤ a.checked.micros) :
    (∀ d, pause d ∉ (socketlinkPass sl a).2) ∧ (socketlinkPass sl a).1.roundtime = 0 ∧
      ((socketlinkPass sl a).1.lastreset = sl.lastreset ∨
        (socketlinkPass sl a).1.lastreset = a.restarted) := by
  have hlate : (sl.roundtime : Int) ≤ timediff sl.lastreset a.checked := by
    rw [timediff_eq, hround]
    omega
  have hsleep := sleepround_late hlate
  rw [socketlinkPass]
  split
  next => exact ⟨fun d hd => (by cases hd), hround, Or.inl rfl⟩
  next =>
    generalize (sl.lastsize + a.recvfrom.toNat) % 2 ^ 32 = size
    simp only [accountDatagram, sleepAndReset, resetRound, hsleep]
    split
    · exact ⟨by simp, hround, Or.inr rfl⟩
    · split
      · split
        · exact ⟨by simp, hround, Or.inr rfl⟩
        · split
          · exact ⟨by simp, hround, Or.inr rfl⟩
          · exact ⟨by simp, hround, Or.inl rfl⟩
      · split
        · exact ⟨by simp, hround, Or.inr rfl⟩
        · exact ⟨by simp, hround, Or.inl rfl⟩

end

/-- In a round without length nothing is ever delayed. -/
theorem socketlinkHandle_zero (arrivals : List Arrival) (sl : Socketlink) (now : Int)
    (hround : sl.roundtime = 0) (hpast : sl.lastreset.micros ≤ now)
    (hclock : Forward now arrivals) (d : Int) : pause d ∉ socketlinkHandle sl arrivals := by
  induction arrivals generalizing sl now with
  | nil => exact List.not_mem_nil
  | cons a as ih =>
      obtain ⟨⟨hsent, hchecked, hcleared, hrestarted⟩, hclock⟩ := hclock
      obtain ⟨hquiet, hround', hreset⟩ := socketlinkPass_zero (a := a) hround (by omega)
      intro hd
      cases List.mem_append.mp hd with
      | inl hd => exact hquiet d hd
      | inr hd =>
          refine ih _ a.restarted.micros hround' ?_ hclock hd
          cases hreset with
          | inl hsame => rw [hsame]; omega
          | inr hnew => rw [hnew]

def totalSize (arrivals : List Arrival) : Nat := (arrivals.map fun a => a.recvfrom.toNat).sum

theorem bytesWithin_append (i : Interval) (start : ℚ) (as bs : List Arrival) :
    bytesWithin i start (as ++ bs) = bytesWithin i start as + bytesWithin i start bs := by
  induction as with
  | nil => simp [bytesWithin]
  | cons a as ih => rw [List.cons_append, bytesWithin, bytesWithin, ih, Nat.add_assoc]

/-- A window that covers all of the datagrams counts them all. -/
theorem bytesWithin_covered {i : Interval} {start : ℚ} {as : List Arrival}
    (h : ∀ a ∈ as, i.covers start a.sent.micros = true) :
    bytesWithin i start as = totalSize as := by
  induction as with
  | nil => rfl
  | cons a as ih =>
      rw [bytesWithin, h a List.mem_cons_self, ih fun b hb => h b (List.mem_cons_of_mem a hb)]
      rfl

/-- The datagrams since the last reset; together with those to come the sender keeps to the
base rate. -/
structure SinceReset (r : FinalRates) (sl : Socketlink) (now : Int)
    (recent arrivals : List Arrival) : Prop where
  counted : sl.lastsize = totalSize recent
  times : ∀ b ∈ recent, sl.lastreset.micros ≤ b.sent.micros ∧ b.sent.micros ≤ now
  past : sl.lastreset.micros ≤ now
  behaved : WellBehaved r (recent ++ arrivals)

theorem sinceReset_fits {r : FinalRates} {sl : Socketlink} {now : Int} {q : ℚ} {a : Arrival}
    {recent as : List Arrival} (hinterval : r.interval = .seconds q)
    (hround : (sl.roundtime : ℚ) ≤ q * 1000000) (h : SinceReset r sl now recent (a :: as))
    (hclock : PassForward now a) (hshort : timediff sl.lastreset a.checked ≤ sl.roundtime) :
    sl.lastsize + a.recvfrom.toNat ≤ r.base := by
  have hcovers : ∀ b ∈ recent ++ [a], r.interval.covers sl.lastreset.micros b.sent.micros = true := by
    intro b hb
    have hpast := h.past
    obtain ⟨hsent, hchecked, _, _⟩ := hclock
    have htimes : sl.lastreset.micros ≤ b.sent.micros ∧ b.sent.micros ≤ a.checked.micros := by
      cases List.mem_append.mp hb with
      | inl hmem =>
          have hb := h.times b hmem
          omega
      | inr hmem =>
          rw [List.mem_singleton.mp hmem]
          omega
    rw [timediff_eq] at hshort
    have hlate : b.sent.micros ≤ sl.lastreset.micros + sl.roundtime := by omega
    have hlate' : (b.sent.micros : ℚ) ≤ (sl.lastreset.micros : ℚ) + (sl.roundtime : ℚ) := by
      exact_mod_cast hlate
    rw [hinterval, Interval.covers, decide_eq_true_iff]
    exact ⟨by exact_mod_cast htimes.1, by linarith⟩
  have hbehaved := h.behaved sl.lastreset.micros
  rw [List.append_cons, bytesWithin_append, bytesWithin_covered hcovers] at hbehaved
  have htotal : totalSize (recent ++ [a]) = totalSize recent + a.recvfrom.toNat := by
    simp [totalSize]
  rw [htotal, ← h.counted] at hbehaved
  omega

/-- The rates that the accounting compares with. -/
structure Keeps (r : FinalRates) (q : ℚ) (sl : Socketlink) : Prop where
  normrate : sl.normrate = r.base
  peakrate : sl.peakrate = r.peak
  roundtime : (sl.roundtime : ℚ) ≤ q * 1000000

/-- A pass does not sleep, and its datagram is counted or the counter starts again. -/
theorem sinceReset_pass {r : FinalRates} {sl : Socketlink} {now : Int} {q : ℚ} {a : Arrival}
    {recent as : List Arrival} (hinterval : r.interval = .seconds q) (hbase : r.base < 2 ^ 32)
    (hpeak : r.base ≤ r.peak) (hkeeps : Keeps r q sl)
    (h : SinceReset r sl now recent (a :: as)) (hclock : PassForward now a) :
    (∀ d, pause d ∉ (socketlinkPass sl a).2) ∧ Keeps r q (socketlinkPass sl a).1 ∧
      ∃ recent', SinceReset r (socketlinkPass sl a).1 a.restarted.micros recent' as := by
  have hnorm := hkeeps.normrate
  have hrate := hkeeps.peakrate
  have hpast := h.past
  have hsent := hclock.sent
  have hchecked := hclock.checked
  have hcleared := hclock.cleared
  have hrestarted := hclock.restarted
  have hbehaved : WellBehaved r (recent ++ [a] ++ as) := by
    rw [List.append_assoc]
    exact h.behaved
  have hlater : ∀ b ∈ recent, sl.lastreset.micros ≤ b.sent.micros ∧
      b.sent.micros ≤ a.restarted.micros := by
    intro b hb
    have htimes := h.times b hb
    omega
  have hdrop : ∀ xs ys, WellBehaved r (xs ++ ys) → WellBehaved r ys := by
    intro xs ys hall start
    have hsum := hall start
    rw [bytesWithin_append] at hsum
    exact Nat.le_trans (Nat.le_add_left _ _) hsum
  by_cases hpos : 0 < a.recvfrom
  · by_cases hshort : timediff sl.lastreset a.checked ≤ sl.roundtime
    · have hfits := sinceReset_fits hinterval hkeeps.roundtime h hclock hshort
      rw [@socketlinkPass_within sl a hpos (by omega) (by omega) (by omega) hshort]
      refine ⟨by simp, ⟨hnorm, hrate, hkeeps.roundtime⟩, recent ++ [a], ?_, fun b hb => ?_, ?_,
        hbehaved⟩
      · simp [totalSize, h.counted]
      · cases List.mem_append.mp hb with
        | inl hmem => exact hlater b hmem
        | inr hmem =>
            rw [List.mem_singleton.mp hmem]
            dsimp only
            omega
      · dsimp only
        omega
    · obtain ⟨peak, hlate⟩ := @socketlinkPass_late sl a hpos (by omega)
      rw [hlate]
      refine ⟨by simp, ⟨hnorm, hrate, hkeeps.roundtime⟩, [], rfl, fun b hb => (by cases hb),
        le_refl _, hdrop _ _ hbehaved⟩
  · rw [socketlinkPass_idle (by omega)]
    refine ⟨by simp, hkeeps, recent, h.counted, hlater, by dsimp only; omega, fun start => ?_⟩
    have hsum := hbehaved start
    rw [bytesWithin_append, bytesWithin_append] at hsum
    rw [bytesWithin_append]
    omega

/-- The datagrams since the last reset stay within the base rate, so the limiter never sleeps. -/
theorem socketlinkHandle_sinceReset {r : FinalRates} {q : ℚ}
    (hinterval : r.interval = .seconds q) (hbase : r.base < 2 ^ 32) (hpeak : r.base ≤ r.peak)
    (arrivals : List Arrival) (sl : Socketlink) (now : Int) (recent : List Arrival)
    (hkeeps : Keeps r q sl) (h : SinceReset r sl now recent arrivals)
    (hclock : Forward now arrivals) (d : Int) : pause d ∉ socketlinkHandle sl arrivals := by
  induction arrivals generalizing sl now recent with
  | nil => exact List.not_mem_nil
  | cons a as ih =>
      obtain ⟨hquiet, hkeeps', recent', h'⟩ :=
        sinceReset_pass hinterval hbase hpeak hkeeps h hclock.1
      intro hd
      cases List.mem_append.mp hd with
      | inl hd => exact hquiet d hd
      | inr hd => exact ih _ a.restarted.micros recent' hkeeps' h' hclock.2 hd

def burst (size : Nat) : Arrival := ⟨size, ⟨0, 0⟩, ⟨0, 0⟩, ⟨0, 0⟩, ⟨0, 0⟩⟩

theorem forward_bursts (sizes : List Nat) : Forward 0 (sizes.map burst) := by
  induction sizes with
  | nil => trivial
  | cons n sizes ih => exact ⟨⟨le_refl _, le_refl _, le_refl _, le_refl _⟩, ih⟩

theorem bytesWithin_bursts (i : Interval) (start : ℚ) (sizes : List Nat) :
    bytesWithin i start (sizes.map burst) ≤ sizes.sum := by
  induction sizes with
  | nil => exact le_refl _
  | cons n sizes ih =>
      rw [List.map_cons, bytesWithin, List.sum_cons]
      split
      · exact Nat.add_le_add (by simp [burst]) ih
      · omega

def freshLink (intOfNan : Nat) (r : FinalRates) (lastwaspeak : Bool) : Socketlink :=
  ⟨r.base, r.peak, r.interval.roundtime intOfNan, lastwaspeak, ⟨0, 0⟩, ⟨0, 0⟩, 0⟩

theorem burst_adds {size n : Nat} (hfit : size + n < 2 ^ 32) :
    (size + (burst n).recvfrom.toNat) % 2 ^ 32 = size + n := by
  rw [Nat.mod_eq_of_lt]
  · simp [burst]
  · simpa [burst] using hfit

/-- A datagram too much within the round, where the last one was a peak. -/
theorem socketlinkPass_pauses {sl : Socketlink} (hflag : sl.lastwaspeak = true)
    (hreset : sl.lastreset = ⟨0, 0⟩) (hround : 0 < sl.roundtime) {n : Nat} (hn : 0 < n)
    (hfit : sl.lastsize + n < 2 ^ 32)
    (hover : sl.peakrate < sl.lastsize + n ∨ sl.normrate < sl.lastsize + n) :
    pause sl.roundtime ∈ (socketlinkPass sl (burst n)).2 := by
  have htime : timediff ⟨0, 0⟩ (burst n).checked = 0 := rfl
  have hsleep : sleepround sl.roundtime = [pause sl.roundtime] := if_pos (by omega)
  have hsize := burst_adds hfit
  rw [socketlinkPass, if_neg (by simp [burst]; omega)]
  simp only [accountDatagram, hsize, hreset, sleepAndReset, hflag, htime, Int.sub_zero, hsleep]
  split
  · simp
  · rw [if_pos (by omega), if_neg (by omega)]
    simp

theorem socketlinkPass_burst {sl : Socketlink} (hreset : sl.lastreset = ⟨0, 0⟩) {n : Nat}
    (hn : 0 < n) (hfit : sl.lastsize + n < 2 ^ 32) (hpeak : sl.lastsize + n ≤ sl.peakrate)
    (hnorm : sl.lastsize + n ≤ sl.normrate) :
    (socketlinkPass sl (burst n)).1 =
      { sl with lasttime := ⟨0, 0⟩, lastsize := sl.lastsize + n } := by
  have htime : timediff ⟨0, 0⟩ (burst n).checked = 0 := rfl
  have hsize := burst_adds hfit
  rw [socketlinkPass, if_neg (by simp [burst]; omega)]
  simp only [accountDatagram, hsize, hreset, htime]
  rw [if_neg (by omega), if_neg (by omega), if_neg (by omega)]
  rfl

/-- Enough bytes at one instant are delayed directly after a peak. -/
theorem exists_pause (sizes : List Nat) (hsizes : ∀ n ∈ sizes, 0 < n ∧ n ≤ bufsize)
    (sl : Socketlink) (hflag : sl.lastwaspeak = true) (hreset : sl.lastreset = ⟨0, 0⟩)
    (hround : 0 < sl.roundtime) (hsize : sl.lastsize ≤ sl.normrate) (hnorm : sl.normrate ≤ 1000000)
    (hover : sl.peakrate < sl.lastsize + sizes.sum ∨ sl.normrate < sl.lastsize + sizes.sum)
    (hunder : sl.lastsize ≤ sl.peakrate) :
    pause sl.roundtime ∈ socketlinkHandle sl (sizes.map burst) := by
  induction sizes generalizing sl with
  | nil =>
      simp only [List.sum_nil] at hover
      omega
  | cons n sizes ih =>
      obtain ⟨hpos, hle⟩ := hsizes n List.mem_cons_self
      simp only [bufsize] at hle
      rw [List.map_cons, socketlinkHandle]
      by_cases hnow : sl.peakrate < sl.lastsize + n ∨ sl.normrate < sl.lastsize + n
      · exact List.mem_append_left _
          (socketlinkPass_pauses hflag hreset hround hpos (by omega) hnow)
      · apply List.mem_append_right
        rw [socketlinkPass_burst hreset hpos (by omega) (by omega) (by omega)]
        rw [List.sum_cons, ← Nat.add_assoc] at hover
        exact ih (fun m hm => hsizes m (List.mem_cons_of_mem n hm)) _ hflag hreset hround
          (by dsimp only; omega) hnorm hover (by dsimp only; omega)

/-- Between them 512 bytes at a time make any number. -/
theorem exists_sizes (total : Nat) :
    ∃ sizes : List Nat, sizes.sum = total ∧ ∀ n ∈ sizes, 0 < n ∧ n ≤ bufsize := by
  induction total with
  | zero => exact ⟨[], rfl, fun n hn => (by cases hn)⟩
  | succ total ih =>
      obtain ⟨sizes, hsum, hsizes⟩ := ih
      refine ⟨1 :: sizes, by rw [List.sum_cons, hsum, Nat.add_comm], fun n hn => ?_⟩
      cases List.mem_cons.mp hn with
      | inl heq =>
          rw [heq]
          exact ⟨Nat.one_pos, by decide⟩
      | inr hmem => exact hsizes n hmem

/-- A sender of `total` bytes at one instant, more than a rate allows. -/
theorem not_neverDelayed {intOfNan : Nat} {r : FinalRates} (total : Nat)
    (hround : 0 < r.interval.roundtime intOfNan) (hbase : r.base ≤ 1000000)
    (hover : r.peak < total ∨ r.base < total)
    (hbehaved : ∀ sizes : List Nat, sizes.sum = total → WellBehaved r (sizes.map burst)) :
    ¬ NeverDelayed intOfNan r := by
  intro hnever
  obtain ⟨sizes, hsum, hsizes⟩ := exists_sizes total
  have hpause := exists_pause sizes hsizes (freshLink intOfNan r true) rfl rfl hround
    (Nat.zero_le _) hbase (by simpa [freshLink, hsum] using hover) (Nat.zero_le _)
  refine hnever (freshLink intOfNan r true) 0 (sizes.map burst) ⟨rfl, rfl, rfl⟩ rfl (le_refl _)
    ?_ (forward_bursts sizes) (hbehaved sizes hsum) _ hpause
  intro a ha
  obtain ⟨n, hn, heq⟩ := List.mem_map.mp ha
  have hsize : (burst n).recvfrom = (n : Int) := rfl
  rw [← heq, hsize]
  exact_mod_cast (hsizes n hn).2

/-- The socket of a section never delays a well-behaved sender, if what the section says makes
the peak at least the base and its interval a number, and only then; a NaN for the interval
does no harm where it is converted to 0. -/
theorem neverDelayed_iff (memory : Memory) (scanFloat : Text → Option Interval)
    (intOfNan : Nat) (file : Text) (tmp : CString) (prevpos : Int) :
    NeverDelayed intOfNan (rangeChecks (readSection memory scanFloat file tmp prevpos)) ↔
      (PeakCovers (readSection memory scanFloat file tmp prevpos) ∧
        (readSection memory scanFloat file tmp prevpos).interval ≠ .nan) ∨
      (readSection memory scanFloat file tmp prevpos).interval = .nan ∧ intOfNan = 0 := by
  generalize readSection memory scanFloat file tmp prevpos = w
  have hbase : (rangeChecks w).base ≤ 1000000 := by
    have hcases := checkBase_cases w.base
    simp only [rangeChecks]
    omega
  cases checkInterval_cases w.interval with
  | inl hnan =>
      have hfinal : (rangeChecks w).interval = .nan := hnan.2
      have hround : (rangeChecks w).interval.roundtime intOfNan = intOfNan := by
        rw [hfinal]
        rfl
      simp only [hnan.1, ne_eq, not_true_eq_false, and_false, false_or, true_and]
      constructor
      · intro hnever
        by_contra hpos
        refine not_neverDelayed ((rangeChecks w).base + 1) (by omega) hbase (by omega) ?_ hnever
        intro sizes _ start
        rw [hfinal]
        have hnone : ∀ as, bytesWithin .nan start as = 0 := by
          intro as
          induction as with
          | nil => rfl
          | cons a as ih => rw [bytesWithin, ih]; rfl
        rw [hnone]
        exact Nat.zero_le _
      · intro hzero sl now arrivals hmade _ hpast _ hclock _
        exact socketlinkHandle_zero arrivals sl now (by rw [hmade.roundtime, hround, hzero]) hpast
          hclock
  | inr hnumber =>
      obtain ⟨hne, q, hq, hshort, hlong⟩ := hnumber
      have hfinal : (rangeChecks w).interval = .seconds q := hq
      obtain ⟨hround, hle⟩ := roundtime_seconds intOfNan hshort
      simp only [hne, ne_eq, not_false_eq_true, and_true, false_and, or_false]
      constructor
      · intro hnever
        by_contra hcovers
        obtain ⟨hpeak, hover⟩ := peak_of_not_covers hcovers
        refine not_neverDelayed (rangeChecks w).base (by rw [hfinal]; exact hround) hbase
          (by omega) (fun sizes hsum start => ?_) hnever
        rw [← hsum]
        exact bytesWithin_bursts _ _ _
      · intro hcovers sl now arrivals hmade hzero hpast _ hclock hbehaved
        refine socketlinkHandle_sinceReset hfinal (by omega) (base_le_peak_of_covers hcovers)
          arrivals sl now [] ⟨hmade.normrate, hmade.peakrate, ?_⟩
          ⟨hzero, fun b hb => (by cases hb), hpast, hbehaved⟩ hclock
        rw [hmade.roundtime, hfinal]
        exact hle

/-- A section with a base above the default peak, and no peak. -/
def baseOnly : FinalRates :=
  rangeChecks (readSection (fun _ _ => nul) (fun _ => none) "[/log]\nbase=4096\n".toList
    (cstring (fun _ _ => nul) "/log".toList) 6)

/-- Of 4096 bytes that each interval allows, the 2049th is delayed. -/
theorem neverDelayed_fails_baseOnly :
    baseOnly = ⟨4096, 2048, .seconds 1⟩ ∧
      WellBehaved baseOnly ([512, 512, 512, 512, 1].map burst) ∧
      pause 1000000 ∈ socketlinkHandle (freshLink 0 baseOnly false)
        ([512, 512, 512, 512, 1].map burst) ∧
      ¬ NeverDelayed 0 baseOnly := by
  have hrates : baseOnly = ⟨4096, 2048, .seconds 1⟩ := by decide +kernel
  have hbehaved : WellBehaved baseOnly ([512, 512, 512, 512, 1].map burst) := by
    intro start
    rw [hrates]
    exact Nat.le_trans (bytesWithin_bursts _ start _) (by decide)
  have hpause : pause 1000000 ∈ socketlinkHandle (freshLink 0 baseOnly false)
      ([512, 512, 512, 512, 1].map burst) := by
    rw [hrates]
    decide +kernel
  refine ⟨hrates, hbehaved, hpause, fun hnever => ?_⟩
  refine hnever (freshLink 0 baseOnly false) 0 ([512, 512, 512, 512, 1].map burst)
    ⟨rfl, rfl, rfl⟩ rfl (le_refl _) ?_ (forward_bursts _) hbehaved _ hpause
  decide +kernel

end Jailkit.Socketd
