import Jailkit.Lib.Traffic

/-!
The rate limiter of jk_socketd: `sleepround`, `timediff` and one pass through
the loop of `socketlink_handle`, with the run of the loop over any datagrams.

`recvfrom` is the input of a pass. The clock is an input as well: every pass
names the instant of `send`, the two readings of `gettimeofday` and the instant
at which `lastsize` is cleared. `Clocked` says what is assumed of them.
-/
namespace Jailkit.Socketd

open Jailkit.Traffic Jailkit.Traffic.Event

def fullsecond : Int := 1000000

def bufsize : Nat := 512

structure Timeval where
  sec : Int
  usec : Int
  deriving DecidableEq, Repr

def Timeval.micros (t : Timeval) : Int := t.sec * fullsecond + t.usec

def timediff (start finish : Timeval) : Int :=
  (finish.sec - start.sec) * fullsecond + (finish.usec - start.usec)

structure Socketlink where
  normrate : Nat
  peakrate : Nat
  roundtime : Nat
  lastwaspeak : Bool
  lasttime : Timeval
  lastreset : Timeval
  lastsize : Nat
  deriving DecidableEq, Repr

/-- What the outside world supplies to one pass. `recvfrom` is its return value:
negative on an error, otherwise the size of the datagram. -/
structure Arrival where
  recvfrom : Int
  sent : Timeval
  checked : Timeval
  cleared : Timeval
  restarted : Timeval
  deriving DecidableEq, Repr

def sleepround (microseconds : Int) : List Event :=
  if microseconds > 0 then [pause microseconds] else []

/-- `lastsize = 0; gettimeofday(&lastreset); lastwaspeak = peak`. -/
def resetRound (sl : Socketlink) (a : Arrival) (peak : Bool) : Socketlink × List Event :=
  ({ sl with lastsize := 0, lastreset := a.restarted, lastwaspeak := peak },
    [reset a.cleared.micros])

/-- Sleep the rest of the round, then reset with the peak flag set. -/
def sleepAndReset (sl : Socketlink) (a : Arrival) : Socketlink × List Event :=
  let r := resetRound sl a true
  (r.1, sleepround (sl.roundtime - timediff sl.lastreset sl.lasttime) ++ r.2)

/-- The accounting after `send`, branch by branch. -/
def accountDatagram (sl : Socketlink) (a : Arrival) : Socketlink × List Event :=
  if sl.lastsize > sl.peakrate then
    sleepAndReset sl a
  else if sl.lastsize > sl.normrate then
    if timediff sl.lastreset sl.lasttime > sl.roundtime then
      resetRound sl a true
    else if sl.lastwaspeak then
      sleepAndReset sl a
    else
      -- the last round was not a peak, so this one may become one
      (sl, [])
  else if timediff sl.lastreset sl.lasttime > sl.roundtime then
    resetRound sl a false
  else
    (sl, [])

/-- One pass through the `while` loop. `lastsize` is an `unsigned int`. -/
def socketlinkPass (sl : Socketlink) (a : Arrival) : Socketlink × List Event :=
  if a.recvfrom ≤ 0 then
    (sl, [])
  else
    let numbytes := a.recvfrom.toNat
    let r := accountDatagram
      { sl with
        lasttime := a.checked
        lastsize := (sl.lastsize + numbytes) % 2 ^ 32 } a
    (r.1, forward numbytes a.sent.micros :: r.2)

def socketlinkHandle : Socketlink → List Arrival → List Event
  | _, [] => []
  | sl, a :: as =>
      let r := socketlinkPass sl a
      r.2 ++ socketlinkHandle r.1 as

/-- The clock does not go back within a pass, and a sleep is not cut short. -/
structure PassClocked (now : Int) (sl : Socketlink) (a : Arrival) : Prop where
  sent : now ≤ a.sent.micros
  checked : a.sent.micros ≤ a.checked.micros
  cleared : a.checked.micros ≤ a.cleared.micros
  restarted : a.cleared.micros ≤ a.restarted.micros
  slept : ∀ d, pause d ∈ (socketlinkPass sl a).2 → a.checked.micros + d ≤ a.cleared.micros

/-- The clock over a whole run, starting at `now`. -/
def Clocked : Int → Socketlink → List Arrival → Prop
  | _, _, [] => True
  | now, sl, a :: as =>
      PassClocked now sl a ∧ Clocked a.restarted.micros (socketlinkPass sl a).1 as

theorem socketlinkPass_idle {sl : Socketlink} {a : Arrival} (h : a.recvfrom ≤ 0) :
    socketlinkPass sl a = (sl, []) := if_pos h

theorem timediff_eq (start finish : Timeval) :
    timediff start finish = finish.micros - start.micros := by
  simp only [timediff, Timeval.micros, fullsecond]
  omega

def Socketlink.rates (sl : Socketlink) : Rates where
  base := sl.normrate
  peak := sl.peakrate
  slack := bufsize
  round := sl.roundtime

/-- The loop head after a reset at `start`: the counter is exact and below the
peak, and directly after a peak (`p`) the flag still holds it below the base. -/
structure Settled (sl : Socketlink) (start now : Int) (p : Bool) (carried : Nat) : Prop where
  counted : sl.lastsize = carried
  belowPeak : carried ≤ sl.peakrate
  flagged : p = true → sl.lastwaspeak = true
  belowBase : sl.lastwaspeak = true → carried ≤ sl.normrate
  started : start ≤ sl.lastreset.micros
  past : start ≤ now

/-- What one pass over a datagram can do, with the fields it leaves alone. -/
inductive PassResult (sl : Socketlink) (a : Arrival) (size : Nat) :
    Socketlink × List Event → Prop
  | kept :
      size ≤ sl.peakrate → (sl.lastwaspeak = true → size ≤ sl.normrate) →
      PassResult sl a size
        ({ sl with lasttime := a.checked, lastsize := size },
          [forward a.recvfrom.toNat a.sent.micros])
  | cleared (peak : Bool) (pauses : List Event) :
      (∀ e ∈ pauses, ∃ d, e = pause d) →
      (sl.normrate < size → peak = true) →
      sl.lastreset.micros + sl.roundtime ≤ a.cleared.micros →
      PassResult sl a size
        ({ sl with
            lasttime := a.checked
            lastsize := 0
            lastreset := a.restarted
            lastwaspeak := peak },
          forward a.recvfrom.toNat a.sent.micros :: (pauses ++ [reset a.cleared.micros]))

theorem mem_sleepround {d : Int} {e : Event} (h : e ∈ sleepround d) :
    e = pause d ∧ 0 < d := by
  unfold sleepround at h
  split at h
  · next hd => exact ⟨by simpa using h, hd⟩
  · simp at h

/-- A sleep for the rest of the round ends the round no earlier than due. -/
theorem sleepAndReset_result (sl : Socketlink) (a : Arrival) (size : Nat)
    (hslept : ∀ d, pause d ∈ sleepround
        (sl.roundtime - timediff sl.lastreset a.checked) →
      a.checked.micros + d ≤ a.cleared.micros)
    (hle : a.checked.micros ≤ a.cleared.micros) :
    PassResult sl a size
      ((sleepAndReset { sl with lasttime := a.checked, lastsize := size } a).1,
        forward a.recvfrom.toNat a.sent.micros ::
          (sleepAndReset { sl with lasttime := a.checked, lastsize := size } a).2) := by
  refine PassResult.cleared true _ ?_ (fun _ => rfl) ?_
  · intro e he
    exact ⟨_, (mem_sleepround he).1⟩
  · rw [timediff_eq] at hslept
    by_cases hpos : (sl.roundtime : Int) - (a.checked.micros - sl.lastreset.micros) > 0
    · have h := hslept _ (by rw [sleepround, if_pos hpos]; exact List.mem_singleton.mpr rfl)
      omega
    · omega

theorem socketlinkPass_result (sl : Socketlink) (a : Arrival) (now : Int)
    (hclock : PassClocked now sl a) (hpos : 0 < a.recvfrom) :
    PassResult sl a ((sl.lastsize + a.recvfrom.toNat) % 2 ^ 32) (socketlinkPass sl a) := by
  have hslept := hclock.slept
  have hle := hclock.cleared
  have hnot : ¬ a.recvfrom ≤ 0 := by omega
  simp only [socketlinkPass, if_neg hnot] at hslept ⊢
  generalize (sl.lastsize + a.recvfrom.toNat) % 2 ^ 32 = size at hslept ⊢
  simp only [accountDatagram] at hslept ⊢
  by_cases hpeak : size > sl.peakrate
  · simp only [if_pos hpeak] at hslept ⊢
    apply sleepAndReset_result sl a _ _ hle
    intro d hd
    exact hslept d (List.mem_cons_of_mem _ (List.mem_append_left _ hd))
  · simp only [if_neg hpeak] at hslept ⊢
    have hround (h : timediff sl.lastreset a.checked > sl.roundtime) :
        sl.lastreset.micros + sl.roundtime ≤ a.cleared.micros := by
      rw [timediff_eq] at h
      omega
    by_cases hnorm : size > sl.normrate
    · simp only [if_pos hnorm] at hslept ⊢
      by_cases hlong : timediff sl.lastreset a.checked > sl.roundtime
      · simp only [if_pos hlong]
        exact PassResult.cleared true [] (by simp) (fun _ => rfl) (hround hlong)
      · simp only [if_neg hlong] at hslept ⊢
        cases hflag : sl.lastwaspeak with
        | true =>
            simp only [hflag, ite_true] at hslept ⊢
            rw [← hflag]
            apply sleepAndReset_result sl a _ _ hle
            intro d hd
            exact hslept d (List.mem_cons_of_mem _ (List.mem_append_left _ hd))
        | false =>
            simp only [Bool.false_eq_true, ite_false]
            rw [← hflag]
            exact PassResult.kept (by omega) (by simp [hflag])
    · simp only [if_neg hnorm] at hslept ⊢
      by_cases hlong : timediff sl.lastreset a.checked > sl.roundtime
      · simp only [if_pos hlong]
        exact PassResult.cleared false [] (by simp) (fun h => absurd h hnorm) (hround hlong)
      · simp only [if_neg hlong]
        exact PassResult.kept (by omega) (fun _ => by omega)

theorem unbroken_of_pauses {es : List Event} (h : ∀ e ∈ es, ∃ d, e = pause d) :
    Unbroken es := by
  intro t ht
  obtain ⟨d, hd⟩ := h _ ht
  cases hd

theorem paced_pauses (R : Rates) (start : Int) (p : Bool) (carried : Nat)
    (es rest : List Event) (h : ∀ e ∈ es, ∃ d, e = pause d)
    (hrest : Paced R start p carried rest) : Paced R start p carried (es ++ rest) := by
  induction es with
  | nil => exact hrest
  | cons e es ih =>
      obtain ⟨d, rfl⟩ := h e (by simp)
      exact ih (fun x hx => h x (List.mem_cons_of_mem _ hx))

theorem ordered_pauses (now : Int) (es rest : List Event)
    (h : ∀ e ∈ es, ∃ d, e = pause d) (hrest : Ordered now rest) :
    Ordered now (es ++ rest) := by
  induction es with
  | nil => exact hrest
  | cons e es ih =>
      obtain ⟨d, rfl⟩ := h e (by simp)
      exact ih (fun x hx => h x (List.mem_cons_of_mem _ hx))

theorem PassClocked.le_restarted {now : Int} {sl : Socketlink} {a : Arrival}
    (h : PassClocked now sl a) : now ≤ a.restarted.micros := by
  have h₁ := h.sent
  have h₂ := h.checked
  have h₃ := h.cleared
  have h₄ := h.restarted
  omega

theorem settled_fit (sl : Socketlink) (a : Arrival) (start now : Int) (p : Bool)
    (carried : Nat) (hset : Settled sl start now p carried)
    (hpeak : sl.peakrate ≤ 10000000) (hsize : a.recvfrom ≤ bufsize) :
    (sl.lastsize + a.recvfrom.toNat) % 2 ^ 32 = carried + a.recvfrom.toNat ∧
      carried + a.recvfrom.toNat ≤ sl.rates.cap p := by
  have hb := hset.belowPeak
  have hn : a.recvfrom.toNat ≤ bufsize := by omega
  constructor
  · rw [hset.counted]
    simp only [bufsize] at hn
    omega
  · simp only [Rates.cap, Socketlink.rates]
    cases p with
    | false => simp only [Bool.false_eq_true, ite_false]; omega
    | true =>
        have h := hset.belowBase (hset.flagged rfl)
        simp only [ite_true]
        omega

/-- One pass keeps the loop head settled and satisfies the monitor, whatever
traffic follows. -/
theorem socketlinkPass_paced (sl : Socketlink) (a : Arrival) (start now : Int)
    (p : Bool) (carried : Nat) (hset : Settled sl start now p carried)
    (hpeak : sl.peakrate ≤ 10000000) (hsize : a.recvfrom ≤ bufsize)
    (hpass : PassClocked now sl a) :
    ∃ start' p' carried',
      Settled (socketlinkPass sl a).1 start' a.restarted.micros p' carried' ∧
      (socketlinkPass sl a).1.rates = sl.rates ∧
      ∀ rest, Paced sl.rates start' p' carried' rest →
        Paced sl.rates start p carried ((socketlinkPass sl a).2 ++ rest) := by
  have hnow := hpass.le_restarted
  have hstart := hset.started
  have hpast := hset.past
  by_cases hpos : 0 < a.recvfrom
  · have hres := socketlinkPass_result sl a now hpass hpos
    obtain ⟨hfit, hcap⟩ := settled_fit sl a start now p carried hset hpeak hsize
    rw [hfit] at hres
    generalize socketlinkPass sl a = r at hres ⊢
    cases hres with
    | kept hle hflag =>
        refine ⟨start, p, carried + a.recvfrom.toNat, ?_, rfl, fun rest h => ⟨hcap, h⟩⟩
        exact ⟨rfl, hle, hset.flagged, hflag, hstart, by omega⟩
    | cleared peak pauses hpauses hflag hround =>
        refine ⟨a.cleared.micros, decide (sl.normrate < carried + a.recvfrom.toNat), 0,
          ?_, rfl, ?_⟩
        · refine ⟨rfl, Nat.zero_le _, ?_, fun _ => Nat.zero_le _,
            hpass.restarted, hpass.restarted⟩
          intro hq
          exact hflag (by simpa using hq)
        · intro rest hrest
          simp only [List.cons_append, List.append_assoc, List.nil_append]
          refine ⟨hcap, ?_⟩
          apply paced_pauses _ _ _ _ _ _ hpauses
          refine ⟨?_, hrest⟩
          simp only [Socketlink.rates]
          omega
  · have hidle : socketlinkPass sl a = (sl, []) := by
      rw [socketlinkPass, if_pos (by omega)]
    rw [hidle]
    refine ⟨start, p, carried, ?_, rfl, fun rest h => h⟩
    exact ⟨hset.counted, hset.belowPeak, hset.flagged, hset.belowBase, hstart, by omega⟩

/-- From a settled loop head the limiter meets its monitor for ever. -/
theorem socketlinkHandle_paced (arrivals : List Arrival) (sl : Socketlink)
    (start now : Int) (p : Bool) (carried : Nat)
    (hset : Settled sl start now p carried) (hpeak : sl.peakrate ≤ 10000000)
    (hsize : ∀ a ∈ arrivals, a.recvfrom ≤ bufsize) (hclock : Clocked now sl arrivals) :
    Paced sl.rates start p carried (socketlinkHandle sl arrivals) := by
  induction arrivals generalizing sl start now p carried with
  | nil => trivial
  | cons a as ih =>
      obtain ⟨start', p', carried', hset', hrates, hpaced⟩ :=
        socketlinkPass_paced sl a start now p carried hset hpeak
          (hsize a (by simp)) hclock.1
      apply hpaced
      rw [← hrates]
      apply ih _ start' a.restarted.micros p' carried' hset' _ _ hclock.2
      · have h := congrArg Rates.peak hrates
        simp only [Socketlink.rates] at h
        omega
      · exact fun b hb => hsize b (List.mem_cons_of_mem _ hb)

/-- A pass of any state, also of the uninitialised one, is either free of resets
or ends with one that leaves the loop head settled. -/
theorem socketlinkPass_reset (sl : Socketlink) (a : Arrival) (now : Int)
    (hpass : PassClocked now sl a) :
    (socketlinkPass sl a).1.rates = sl.rates ∧
      (Unbroken (socketlinkPass sl a).2 ∨
        ∃ pre, (socketlinkPass sl a).2 = pre ++ [reset a.cleared.micros] ∧ Unbroken pre ∧
          Settled (socketlinkPass sl a).1 a.cleared.micros a.restarted.micros false 0) := by
  by_cases hpos : 0 < a.recvfrom
  · have hres := socketlinkPass_result sl a now hpass hpos
    generalize socketlinkPass sl a = r at hres ⊢
    cases hres with
    | kept hle hflag => exact ⟨rfl, Or.inl (by simp)⟩
    | cleared peak pauses hpauses hflag hround =>
        refine ⟨rfl, Or.inr ⟨forward a.recvfrom.toNat a.sent.micros :: pauses, rfl, ?_, ?_⟩⟩
        · simpa using unbroken_of_pauses hpauses
        · exact ⟨rfl, Nat.zero_le _, fun h => absurd h (by simp), fun _ => Nat.zero_le _,
            hpass.restarted, hpass.restarted⟩
  · rw [socketlinkPass, if_pos (by omega)]
    exact ⟨rfl, Or.inl unbroken_nil⟩

theorem socketlinkPass_ordered (sl : Socketlink) (a : Arrival) (now : Int)
    (hpass : PassClocked now sl a) (rest : List Event)
    (hrest : Ordered a.restarted.micros rest) :
    Ordered now ((socketlinkPass sl a).2 ++ rest) := by
  by_cases hpos : 0 < a.recvfrom
  · have hsent := hpass.sent
    have hchecked := hpass.checked
    have hcleared := hpass.cleared
    have hres := socketlinkPass_result sl a now hpass hpos
    generalize socketlinkPass sl a = r at hres ⊢
    cases hres with
    | kept hle hflag =>
        refine ⟨hsent, ordered_mono ?_ rest hrest⟩
        have := hpass.restarted
        omega
    | cleared peak pauses hpauses hflag hround =>
        simp only [List.cons_append, List.append_assoc, List.nil_append]
        refine ⟨hsent, ordered_pauses _ _ _ hpauses ⟨by omega, ?_⟩⟩
        exact ordered_mono hpass.restarted rest hrest
  · rw [socketlinkPass, if_pos (by omega)]
    exact ordered_mono hpass.le_restarted rest hrest

theorem socketlinkHandle_ordered (arrivals : List Arrival) (sl : Socketlink) (now : Int)
    (hclock : Clocked now sl arrivals) : Ordered now (socketlinkHandle sl arrivals) := by
  induction arrivals generalizing sl now with
  | nil => trivial
  | cons a as ih =>
      exact socketlinkPass_ordered sl a now hclock.1 _ (ih _ _ hclock.2)

theorem socketlinkHandle_first_reset (arrivals : List Arrival) (sl : Socketlink)
    (now t : Int) (pre post : List Event) (hpeak : sl.peakrate ≤ 10000000)
    (hsize : ∀ a ∈ arrivals, a.recvfrom ≤ bufsize) (hclock : Clocked now sl arrivals)
    (hpre : Unbroken pre) (h : socketlinkHandle sl arrivals = pre ++ reset t :: post) :
    Paced sl.rates t false 0 post := by
  induction arrivals generalizing sl now pre with
  | nil => simp [socketlinkHandle] at h
  | cons a as ih =>
      have has : ∀ b ∈ as, b.recvfrom ≤ bufsize :=
        fun b hb => hsize b (List.mem_cons_of_mem _ hb)
      obtain ⟨hrates, hcases⟩ := socketlinkPass_reset sl a now hclock.1
      have hpeak' : (socketlinkPass sl a).1.peakrate ≤ 10000000 := by
        have hp := congrArg Rates.peak hrates
        simp only [Socketlink.rates] at hp
        omega
      simp only [socketlinkHandle] at h
      rw [← hrates]
      rcases hcases with hu | ⟨pre', hevents, hu, hset⟩
      · obtain ⟨pre', rfl, htail⟩ := reset_after_unbroken hu h
        refine ih _ a.restarted.micros pre' hpeak' has hclock.2 ?_ htail
        exact fun s hs => hpre s (List.mem_append_right _ hs)
      · rw [hevents, List.append_assoc] at h
        obtain ⟨rfl, rfl⟩ := first_reset_unique hpre hu h.symm
        exact socketlinkHandle_paced as _ _ _ false 0 hset hpeak' has hclock.2

/-- After any reset the traffic meets the monitor, whatever the state the run
started from. -/
theorem socketlinkHandle_after_reset (arrivals : List Arrival) (sl : Socketlink)
    (now t : Int) (pre post : List Event) (hpeak : sl.peakrate ≤ 10000000)
    (hsize : ∀ a ∈ arrivals, a.recvfrom ≤ bufsize) (hclock : Clocked now sl arrivals)
    (h : socketlinkHandle sl arrivals = pre ++ reset t :: post) :
    (∃ p, Paced sl.rates t p 0 post) ∧ Ordered t post := by
  constructor
  · by_cases hu : Unbroken pre
    · exact ⟨false, socketlinkHandle_first_reset arrivals sl now t pre post hpeak
        hsize hclock hu h⟩
    · obtain ⟨pre₁, t₁, pre₂, rfl, hu₁⟩ := exists_first_reset pre hu
      rw [List.append_assoc, List.cons_append] at h
      have hfirst := socketlinkHandle_first_reset arrivals sl now t₁ pre₁ _ hpeak
        hsize hclock hu₁ h
      exact paced_from_reset sl.rates pre₂ post t t₁ false 0 hfirst
  · have ho := socketlinkHandle_ordered arrivals sl now hclock
    rw [h] at ho
    exact ordered_from_reset pre post t ho

/-- What jk_socketd.8 promises of the traffic of one socket. A round is the
stretch between two consecutive resets. -/
structure RateLimited (base peak roundtime : Nat) (es : List Event) : Prop where
  spaced : ∀ pre r post t₁ t₂, es = pre ++ reset t₁ :: (r ++ reset t₂ :: post) →
    Unbroken r → (roundtime : Int) ≤ t₂ - t₁
  roundBytes : ∀ pre r post t₁ t₂, es = pre ++ reset t₁ :: (r ++ reset t₂ :: post) →
    Unbroken r → bytes r ≤ peak + 512
  afterPeak : ∀ pre r s post t₁ t₂ t₃,
    es = pre ++ reset t₁ :: (r ++ reset t₂ :: (s ++ reset t₃ :: post)) →
    Unbroken r → Unbroken s → base < bytes r → bytes s ≤ base + 512
  window : base ≤ peak → ∀ pre post t, ∀ w₁ w₂ : Int, es = pre ++ reset t :: post →
    w₂ - w₁ < roundtime → bytesIn w₁ w₂ post ≤ peak + base + 1024

/-- The limiter bounds every round after the first reset, from any initial state
of the link: the fields that malloc left uninitialised do not matter. -/
theorem socketlinkHandle_rateLimited (sl : Socketlink) (arrivals : List Arrival)
    (now : Int) (hpeak : sl.peakrate ≤ 10000000)
    (hsize : ∀ a ∈ arrivals, a.recvfrom ≤ bufsize) (hclock : Clocked now sl arrivals) :
    RateLimited sl.normrate sl.peakrate sl.roundtime (socketlinkHandle sl arrivals) := by
  have hafter (t : Int) (pre post : List Event) :=
    socketlinkHandle_after_reset arrivals sl now t pre post hpeak hsize hclock
  refine ⟨?_, ?_, ?_, ?_⟩
  · intro pre r post t₁ t₂ h hr
    obtain ⟨⟨p, hp⟩, -⟩ := hafter t₁ pre _ h
    exact (paced_round sl.rates r post t₁ t₂ p hr hp).1
  · intro pre r post t₁ t₂ h hr
    obtain ⟨⟨p, hp⟩, -⟩ := hafter t₁ pre _ h
    have hround := (paced_round sl.rates r post t₁ t₂ p hr hp).2.1
    exact Nat.le_trans hround (sl.rates.cap_le_peak p)
  · intro pre r s post t₁ t₂ t₃ h hr hs hbase
    obtain ⟨⟨p, hp⟩, -⟩ := hafter t₁ pre _ h
    have hnext := (paced_round sl.rates r _ t₁ t₂ p hr hp).2.2
    have hround := (paced_round sl.rates s post t₂ t₃ _ hs hnext).2.1
    have hpeaked : decide (sl.rates.base < bytes r) = true := by
      exact decide_eq_true hbase
    rw [hpeaked] at hround
    exact Nat.le_trans hround sl.rates.cap_afterPeak
  · intro _ pre post t w₁ w₂ h hw
    obtain ⟨⟨p, hp⟩, ho⟩ := hafter t pre post h
    exact paced_window sl.rates hw post t t p hp ho

def sampleLink : Socketlink where
  normrate := 512
  peakrate := 2048
  roundtime := 1000000
  lastwaspeak := true
  lasttime := ⟨0, 0⟩
  lastreset := ⟨0, 0⟩
  lastsize := 4000000000

def sampleArrivals : List Arrival :=
  [⟨500, ⟨0, 10⟩, ⟨0, 20⟩, ⟨1, 20⟩, ⟨1, 30⟩⟩,
    ⟨512, ⟨1, 40⟩, ⟨1, 50⟩, ⟨1, 60⟩, ⟨1, 70⟩⟩,
    ⟨100, ⟨1, 80⟩, ⟨1, 90⟩, ⟨2, 30⟩, ⟨2, 40⟩⟩,
    ⟨300, ⟨4, 0⟩, ⟨4, 10⟩, ⟨4, 20⟩, ⟨4, 30⟩⟩]

example : socketlinkHandle sampleLink sampleArrivals =
    [forward 500 10, pause 999980, reset 1000020, forward 512 1000040,
      forward 100 1000080, pause 999940, reset 2000030, forward 300 4000000,
      reset 4000020] := by
  decide

theorem sampleArrivals_clocked : Clocked 0 sampleLink sampleArrivals := by
  refine ⟨⟨?_, ?_, ?_, ?_, ?_⟩, ⟨?_, ?_, ?_, ?_, ?_⟩, ⟨?_, ?_, ?_, ?_, ?_⟩,
    ⟨?_, ?_, ?_, ?_, ?_⟩, trivial⟩
  all_goals first
    | decide
    | (intro d hd
       simp [socketlinkPass, accountDatagram, sleepAndReset, resetRound, sleepround,
         timediff, fullsecond, sampleLink] at hd
       try (subst hd; decide))

theorem socketlinkHandle_rateLimited_sample :
    RateLimited 512 2048 1000000 (socketlinkHandle sampleLink sampleArrivals) :=
  socketlinkHandle_rateLimited sampleLink sampleArrivals 0 (by decide) (by decide)
    sampleArrivals_clocked

end Jailkit.Socketd
