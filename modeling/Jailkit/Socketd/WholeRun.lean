import Jailkit.Socketd.FirstRound

/-!
The traffic of one socket from the moment it was made. The counter of the first round starts
from what `malloc` has left in it, so that it may pass over from the largest number to zero;
this happens at the first datagram or not at all.
-/
namespace Jailkit.Socketd

open Jailkit.Traffic Jailkit.Traffic.Event

def Socketlink.ratesOverall (sl : Socketlink) : Rates where
  base := sl.normrate + bufsize
  peak := sl.peakrate + bufsize
  slack := bufsize
  round := sl.roundtime

/-- The loop head in a round that began at `start`: the counter lacks one datagram at most. -/
structure Loaded (sl : Socketlink) (start now : Int) (p : Bool) (carried : Nat) : Prop where
  counted : carried ≤ sl.lastsize + bufsize
  belowPeak : sl.lastsize ≤ sl.peakrate
  flagged : p = true → sl.lastwaspeak = true
  belowBase : sl.lastwaspeak = true → sl.lastsize ≤ sl.normrate
  started : start ≤ sl.lastreset.micros
  past : start ≤ now

structure Unused (sl : Socketlink) (start now : Int) : Prop where
  started : start ≤ sl.lastreset.micros
  past : start ≤ now

section

variable {sl : Socketlink} {a : Arrival} {start now : Int} {p : Bool} {carried : Nat}
  {arrivals : List Arrival}

/-- After a round that carried more than the base the flag is set. -/
theorem loaded_cleared (hpass : PassClocked now sl a) {size : Nat} {peak : Bool}
    (hcounted : carried ≤ size + bufsize) (hflag : sl.normrate < size → peak = true) :
    Loaded { sl with lasttime := a.checked, lastsize := 0, lastreset := a.restarted,
                     lastwaspeak := peak }
      a.cleared.micros a.restarted.micros
      (decide (sl.ratesOverall.base < carried)) 0 := by
  refine ⟨Nat.zero_le _, Nat.zero_le _, fun h => hflag ?_, fun _ => Nat.zero_le _,
    hpass.restarted, hpass.restarted⟩
  have hover : sl.normrate + bufsize < carried := of_decide_eq_true h
  omega

/-- What one pass leaves, given how the counter stands after the datagram. -/
theorem socketlinkPass_carries (hpass : PassClocked now sl a) (hpos : 0 < a.recvfrom)
    (hstart : start ≤ sl.lastreset.micros) (hpast : start ≤ now)
    (hp : p = true → sl.lastwaspeak = true)
    (hcounted : carried + a.recvfrom.toNat ≤
      (sl.lastsize + a.recvfrom.toNat) % 2 ^ 32 + bufsize)
    (hcap : carried + a.recvfrom.toNat ≤ sl.ratesOverall.cap p) :
    ∃ start' p' carried',
      Loaded (socketlinkPass sl a).1 start' a.restarted.micros p' carried' ∧
      (socketlinkPass sl a).1.rates = sl.rates ∧
      ∀ rest, Paced sl.ratesOverall start' p' carried' rest →
        Paced sl.ratesOverall start p carried ((socketlinkPass sl a).2 ++ rest) := by
  have hnow := hpass.le_restarted
  have hres := socketlinkPass_result sl a now hpass hpos
  generalize (sl.lastsize + a.recvfrom.toNat) % 2 ^ 32 = size at hres hcounted
  generalize socketlinkPass sl a = r at hres ⊢
  cases hres with
  | kept hle hflag =>
      refine ⟨start, p, carried + a.recvfrom.toNat, ?_, rfl, fun rest h => ⟨hcap, h⟩⟩
      exact ⟨hcounted, hle, hp, hflag, hstart, by omega⟩
  | cleared peak pauses hpauses hflag hround =>
      refine ⟨a.cleared.micros, _, 0, loaded_cleared hpass hcounted hflag, rfl, ?_⟩
      intro rest hrest
      simp only [List.cons_append, List.append_assoc, List.nil_append]
      refine ⟨hcap, ?_⟩
      apply paced_pauses _ _ _ _ _ _ hpauses
      refine ⟨?_, hrest⟩
      simp only [Socketlink.ratesOverall]
      omega

theorem ratesOverall_eq {sl sl' : Socketlink} (h : sl'.rates = sl.rates) :
    sl'.ratesOverall = sl.ratesOverall ∧ sl'.peakrate = sl.peakrate := by
  simp only [Socketlink.rates, Rates.mk.injEq] at h
  obtain ⟨hbase, hpeak, -, hround⟩ := h
  rw [Socketlink.ratesOverall, Socketlink.ratesOverall, hbase, hpeak, hround]
  exact ⟨rfl, rfl⟩

theorem loaded_paced (hload : Loaded sl start now p carried) (hpeak : sl.peakrate ≤ 10000000)
    (hsize : ∀ a ∈ arrivals, a.recvfrom ≤ bufsize) (hclock : Clocked now sl arrivals) :
    Paced sl.ratesOverall start p carried (socketlinkHandle sl arrivals) := by
  induction arrivals generalizing sl start now p carried with
  | nil => trivial
  | cons a as ih =>
      have has : ∀ b ∈ as, b.recvfrom ≤ bufsize :=
        fun b hb => hsize b (List.mem_cons_of_mem _ hb)
      have hn := hsize a List.mem_cons_self
      rw [socketlinkHandle]
      by_cases hpos : 0 < a.recvfrom
      · have hcounted := hload.counted
        have hbelow := hload.belowPeak
        have hexact : (sl.lastsize + a.recvfrom.toNat) % 2 ^ 32 =
            sl.lastsize + a.recvfrom.toNat := by
          simp only [bufsize] at hn
          omega
        have hcap : carried + a.recvfrom.toNat ≤ sl.ratesOverall.cap p := by
          simp only [Rates.cap, Socketlink.ratesOverall]
          cases p with
          | false => simp only [Bool.false_eq_true, ite_false]; omega
          | true =>
              have hbase := hload.belowBase (hload.flagged rfl)
              simp only [ite_true]
              omega
        obtain ⟨start', p', carried', hload', hrates, hpaced⟩ :=
          socketlinkPass_carries hclock.1 hpos hload.started hload.past hload.flagged
            (by omega) hcap
        obtain ⟨hoverall, hpeak'⟩ := ratesOverall_eq hrates
        apply hpaced
        rw [← hoverall]
        exact ih hload' (by omega) has hclock.2
      · have hidle : socketlinkPass sl a = (sl, []) := socketlinkPass_idle (by omega)
        have hclock' := hclock.2
        rw [hidle] at hclock' ⊢
        have hnow := hclock.1.le_restarted
        have hpast := hload.past
        exact ih { hload with past := by omega } hpeak has hclock'

/-- From its first datagram on a socket meets the monitor, whatever its memory held. -/
theorem unused_paced (hunused : Unused sl start now) (hpeak : sl.peakrate ≤ 10000000)
    (hsize : ∀ a ∈ arrivals, a.recvfrom ≤ bufsize) (hclock : Clocked now sl arrivals) :
    Paced sl.ratesOverall start false 0 (socketlinkHandle sl arrivals) := by
  induction arrivals generalizing now with
  | nil => trivial
  | cons a as ih =>
      have has : ∀ b ∈ as, b.recvfrom ≤ bufsize :=
        fun b hb => hsize b (List.mem_cons_of_mem _ hb)
      have hn := hsize a List.mem_cons_self
      rw [socketlinkHandle]
      by_cases hpos : 0 < a.recvfrom
      · have hcap : 0 + a.recvfrom.toNat ≤ sl.ratesOverall.cap false := by
          simp only [Rates.cap, Socketlink.ratesOverall, Bool.false_eq_true, ite_false]
          omega
        have hflag : false = true → sl.lastwaspeak = true := fun h => absurd h (by decide)
        obtain ⟨start', p', carried', hload', hrates, hpaced⟩ :=
          socketlinkPass_carries hclock.1 hpos hunused.started hunused.past hflag
            (by simp only [bufsize] at hn ⊢; omega) hcap
        obtain ⟨hoverall, hpeak'⟩ := ratesOverall_eq hrates
        apply hpaced
        rw [← hoverall]
        exact loaded_paced hload' (by omega) has hclock.2
      · have hidle : socketlinkPass sl a = (sl, []) := socketlinkPass_idle (by omega)
        have hclock' := hclock.2
        rw [hidle] at hclock' ⊢
        have hnow := hclock.1.le_restarted
        have hpast := hunused.past
        exact ih { hunused with past := by omega } has hclock'

/-- No window shorter than a round carries more than a peak and a base, with four datagrams. -/
theorem unused_window (hunused : Unused sl start now) (hpeak : sl.peakrate ≤ 10000000)
    (hsize : ∀ a ∈ arrivals, a.recvfrom ≤ bufsize) (hclock : Clocked now sl arrivals)
    {w₁ w₂ : Int} (hshort : w₂ - w₁ < sl.roundtime) :
    bytesIn w₁ w₂ (socketlinkHandle sl arrivals) ≤ sl.peakrate + sl.normrate + 4 * bufsize := by
  have hpaced := unused_paced hunused hpeak hsize hclock
  have hwindow := paced_window sl.ratesOverall hshort _ start now false hpaced
    (socketlinkHandle_ordered arrivals sl now hclock)
  simp only [Socketlink.ratesOverall] at hwindow
  omega

end

end Jailkit.Socketd
