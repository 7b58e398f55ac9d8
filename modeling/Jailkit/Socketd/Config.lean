import Jailkit.Ini.Parser
import Mathlib.Data.Rat.Floor

/-!
The rates that jk_socketd takes from a section of its configuration. What `sscanf` makes of
an interval is a parameter, and so is the `int` that a NaN is converted to.
-/
namespace Jailkit.Socketd

open Ini (iniparserGetIntAtPosition iniparserGetStringAtPosition)

inductive Interval where
  | seconds (q : ℚ)
  | infinite (negative : Bool)
  | nan
  deriving DecidableEq

def hundredth : ℚ := 5764607523034235 / 2 ^ 59

/-- `0.01 > interval` -/
def Interval.tooShort : Interval → Bool
  | seconds q => q < hundredth
  | infinite negative => negative
  | nan => false

/-- `interval > 60.0` -/
def Interval.tooLong : Interval → Bool
  | seconds q => 60 < q
  | infinite negative => !negative
  | nan => false

/-- `(int)(interval*1000000.0)`: the product of a `float` and 1000000 is exact. -/
def Interval.roundtime (intOfNan : Nat) : Interval → Nat
  | seconds q => ⌊q * 1000000⌋.toNat
  | infinite _ => intOfNan
  | nan => intOfNan

/-- `iniparser_get_float_at_position`; `scanFloat` is `none` where nothing is converted. -/
def iniparserGetFloatAtPosition (scanFloat : Text → Option Interval) (file : Text)
    (sec key : CString) (position : Int) : Interval :=
  let a := iniparserGetStringAtPosition file sec key position 25
  if a.ret = -1 then .seconds 0
  else (scanFloat (stripString (cText a.buffer))).getD (.seconds 1)

def checkBase (base : Nat) : Nat := if 10 > base ∨ base > 1000000 then 511 else base

def peakOutOfRange (peak base : Nat) : Prop := 100 > peak ∨ peak > 10000000 ∨ peak < base

instance (peak base : Nat) : Decidable (peakOutOfRange peak base) :=
  inferInstanceAs (Decidable (_ ∨ _ ∨ _))

/-- For backwards compatibility `peek` is checked. -/
def checkPeak (base peak peek : Nat) : Nat :=
  if peakOutOfRange peak base then
    if peakOutOfRange peek base then 2048 else peek
  else peak

def checkInterval (interval : Interval) : Interval :=
  if interval.tooShort ∨ interval.tooLong then .seconds 5 else interval

/-- What stands in the section, each number as an `unsigned int`. -/
structure Written where
  base : Nat
  peak : Nat
  peek : Nat
  interval : Interval

/-- The reads of `main` for the section that `iniparser_next_section` has found, with the
stream at `prevpos` behind it. -/
def readSection (memory : Memory) (scanFloat : Text → Option Interval) (file : Text)
    (tmp : CString) (prevpos : Int) : Written :=
  let secpos := prevpos - tmp.text.length - 4
  let key (k : String) := cstring memory k.toList
  { base := iniparserGetIntAtPosition file tmp (key "base") secpos
    peak := iniparserGetIntAtPosition file tmp (key "peak") secpos
    peek := iniparserGetIntAtPosition file tmp (key "peek") secpos
    interval := iniparserGetFloatAtPosition scanFloat file tmp (key "interval") secpos }

/-- What `main` hands to `new_socketlink`, with the interval that it makes the last argument
from. -/
structure FinalRates where
  base : Nat
  peak : Nat
  interval : Interval
  deriving DecidableEq

def rangeChecks (w : Written) : FinalRates where
  base := checkBase w.base
  peak := checkPeak (checkBase w.base) w.peak w.peek
  interval := checkInterval w.interval

/-- The number is a peak for this base. -/
def Serves (peak base : Nat) : Prop := base ≤ peak ∧ peak ≤ 10000000

/-- What is written makes the peak at least the base. -/
def PeakCovers (w : Written) : Prop :=
  w.base ≤ 2048 ∨ 1000000 < w.base ∨ Serves w.peak w.base ∨ Serves w.peek w.base

theorem checkBase_cases (base : Nat) :
    checkBase base = 511 ∧ (base < 10 ∨ 1000000 < base) ∨
      checkBase base = base ∧ 10 ≤ base ∧ base ≤ 1000000 := by
  rw [checkBase]
  split
  next h => exact Or.inl ⟨rfl, by omega⟩
  next h => exact Or.inr ⟨rfl, by omega⟩

/-- A peak that serves is taken, the default where there is none. -/
theorem checkPeak_cases (base peak peek : Nat) :
    base ≤ checkPeak base peak peek ∧
        (100 ≤ peak ∧ Serves peak base ∨ 100 ≤ peek ∧ Serves peek base) ∨
      checkPeak base peak peek = 2048 ∧
        ¬ (100 ≤ peak ∧ Serves peak base) ∧ ¬ (100 ≤ peek ∧ Serves peek base) := by
  have hserves : ∀ n, ¬ peakOutOfRange n base ↔ 100 ≤ n ∧ Serves n base := by
    intro n
    rw [peakOutOfRange, Serves]
    omega
  rw [← hserves, ← hserves, checkPeak]
  split
  next hpeak =>
    split
    next hpeek => exact Or.inr ⟨rfl, not_not.mpr hpeak, not_not.mpr hpeek⟩
    next hpeek => exact Or.inl ⟨((hserves peek).mp hpeek).2.1, Or.inr hpeek⟩
  next hpeak => exact Or.inl ⟨((hserves peak).mp hpeak).2.1, Or.inl hpeak⟩

theorem base_le_peak_of_covers {w : Written} (h : PeakCovers w) :
    (rangeChecks w).base ≤ (rangeChecks w).peak := by
  have hpeak := checkPeak_cases (checkBase w.base) w.peak w.peek
  have hbase := checkBase_cases w.base
  simp only [PeakCovers, Serves] at h hpeak
  simp only [rangeChecks]
  omega

/-- A peak below the base is the default. -/
theorem peak_of_not_covers {w : Written} (h : ¬ PeakCovers w) :
    (rangeChecks w).peak = 2048 ∧ 2048 < (rangeChecks w).base := by
  have hpeak := checkPeak_cases (checkBase w.base) w.peak w.peek
  have hbase := checkBase_cases w.base
  simp only [PeakCovers, Serves] at h hpeak
  simp only [rangeChecks]
  omega

/-- After the checks an interval is a number of seconds from 0.01 to 60, or a NaN. -/
theorem checkInterval_cases (i : Interval) :
    i = .nan ∧ checkInterval i = .nan ∨
      i ≠ .nan ∧ ∃ q, checkInterval i = .seconds q ∧ hundredth ≤ q ∧ q ≤ 60 := by
  cases i with
  | nan => exact Or.inl ⟨rfl, rfl⟩
  | infinite negative =>
      refine Or.inr ⟨fun h => (by cases h), 5, ?_, by norm_num [hundredth], by norm_num⟩
      cases negative with
      | true => rfl
      | false => rfl
  | seconds q =>
      refine Or.inr ⟨fun h => (by cases h), ?_⟩
      rw [checkInterval]
      split
      next => exact ⟨5, rfl, by norm_num [hundredth], by norm_num⟩
      next h =>
        simp only [Interval.tooShort, Interval.tooLong, decide_eq_true_eq, not_or, not_lt] at h
        exact ⟨q, rfl, h⟩

/-- A round is as long as the interval, or less than a microsecond shorter. -/
theorem roundtime_seconds (intOfNan : Nat) {q : ℚ} (hq : hundredth ≤ q) :
    0 < (Interval.seconds q).roundtime intOfNan ∧
      ((Interval.seconds q).roundtime intOfNan : ℚ) ≤ q * 1000000 := by
  have hone : (1 : ℚ) ≤ q * 1000000 := by
    have hsmall : (1 : ℚ) ≤ hundredth * 1000000 := by norm_num [hundredth]
    linarith
  have hfloor : 1 ≤ ⌊q * 1000000⌋ := Int.le_floor.mpr (by exact_mod_cast hone)
  rw [Interval.roundtime]
  constructor
  · omega
  · have hle := Int.floor_le (q * 1000000)
    have hcast : ((⌊q * 1000000⌋.toNat : ℤ) : ℚ) = (⌊q * 1000000⌋ : ℚ) := by
      rw [Int.toNat_of_nonneg (by omega)]
    calc ((⌊q * 1000000⌋.toNat : ℕ) : ℚ) = ((⌊q * 1000000⌋.toNat : ℤ) : ℚ) := by norm_cast
      _ = (⌊q * 1000000⌋ : ℚ) := hcast
      _ ≤ q * 1000000 := hle

end Jailkit.Socketd
