import Jailkit.Socketd.Limiter

/-!
The first round of a socket: `new_socketlink` sets the rates and `lastreset`, and leaves the
flag, the counter and `lasttime` as `malloc` has handed them out.
-/
namespace Jailkit.Socketd

open Jailkit.Traffic Jailkit.Traffic.Event

structure Garbage where
  lastwaspeak : UInt16
  lasttime : Timeval
  lastsize : UInt32
  deriving DecidableEq, Repr

def newSocketlink (memory : Garbage) (normrate peakrate roundtime : UInt32)
    (lastreset : Timeval) : Socketlink where
  normrate := normrate.toNat
  peakrate := peakrate.toNat
  roundtime := roundtime.toNat
  lastwaspeak := memory.lastwaspeak != 0
  lasttime := memory.lasttime
  lastreset := lastreset
  lastsize := memory.lastsize.toNat

/-- Whatever the memory held, the traffic is the same. -/
def IgnoresGarbage (normrate peakrate roundtime : UInt32) (lastreset : Timeval)
    (arrivals : List Arrival) : Prop :=
  ∀ memory memory',
    socketlinkHandle (newSocketlink memory normrate peakrate roundtime lastreset) arrivals =
      socketlinkHandle (newSocketlink memory' normrate peakrate roundtime lastreset) arrivals

/-- The datagram is counted when more than the round is over. -/
def Late (roundtime : Nat) (lastreset : Timeval) (a : Arrival) : Prop :=
  timediff lastreset a.checked > roundtime

/-- Up to the datagram that ends the round, by its size or because it is late, the counter is
not over `normrate`. -/
def NoPeak (normrate peakrate roundtime : Nat) (lastreset : Timeval) : Nat → List Arrival → Prop
  | _, [] => True
  | counter, a :: as =>
      if a.recvfrom ≤ 0 then NoPeak normrate peakrate roundtime lastreset counter as
      else
        let size := (counter + a.recvfrom.toNat) % 2 ^ 32
        peakrate < size ∨ Late roundtime lastreset a ∨
          size ≤ normrate ∧ NoPeak normrate peakrate roundtime lastreset size as

/-- The first datagram is late, and there is no peak in the round that it starts. -/
def StartsLate (normrate peakrate roundtime : Nat) (lastreset : Timeval) :
    List Arrival → Prop
  | [] => True
  | a :: as =>
      if a.recvfrom ≤ 0 then StartsLate normrate peakrate roundtime lastreset as
      else Late roundtime lastreset a ∧ NoPeak normrate peakrate roundtime a.restarted 0 as

def Unlimited (normrate peakrate : UInt32) : Prop :=
  normrate.toNat = 2 ^ 32 - 1 ∧ peakrate.toNat = 2 ^ 32 - 1

def counted (sl : Socketlink) (a : Arrival) : Nat :=
  (sl.lastsize + a.recvfrom.toNat) % 2 ^ 32

def Ends (sl : Socketlink) (a : Arrival) : Prop :=
  sl.peakrate < counted sl a ∨ Late sl.roundtime sl.lastreset a ∨
    sl.normrate < counted sl a ∧ sl.lastwaspeak = true

def ended (sl : Socketlink) (a : Arrival) : Socketlink :=
  { sl with
    lasttime := a.checked
    lastsize := 0
    lastreset := a.restarted
    lastwaspeak := decide (sl.peakrate < counted sl a ∨ sl.normrate < counted sl a) }

section

variable {sl : Socketlink} {a : Arrival} {as : List Arrival} {d t : Int}

theorem counted_lt : counted sl a < 2 ^ 32 := Nat.mod_lt _ (by decide)

theorem sleepround_past (h : Late sl.roundtime sl.lastreset a) :
    sleepround (sl.roundtime - timediff sl.lastreset a.checked) = [] := by
  rw [Late] at h
  rw [sleepround, if_neg (by omega)]

/-- However a round ends, the rest of it is slept. -/
theorem socketlinkPass_ends (hpos : 0 < a.recvfrom) (h : Ends sl a) :
    socketlinkPass sl a = (ended sl a, forward a.recvfrom.toNat a.sent.micros ::
      (sleepround (sl.roundtime - timediff sl.lastreset a.checked) ++
        [reset a.cleared.micros])) := by
  have hnot : ¬ a.recvfrom ≤ 0 := by omega
  have hcounted : (sl.lastsize + a.recvfrom.toNat) % 2 ^ 32 = counted sl a := rfl
  rw [socketlinkPass, if_neg hnot]
  simp only [accountDatagram, hcounted]
  split
  next hpeak => simp [sleepAndReset, resetRound, ended, hpeak]
  next hpeak =>
    split
    next hnorm =>
      split
      next hlate => simp [resetRound, ended, hnorm, sleepround_past hlate]
      next hlate =>
        split
        next hflag => simp [sleepAndReset, resetRound, ended, hnorm]
        next hflag =>
          obtain hover | hlater | hboth := h
          · exact absurd hover hpeak
          · exact absurd hlater hlate
          · exact absurd hboth.2 hflag
    next hnorm =>
      split
      next hlate => simp [resetRound, ended, hnorm, hpeak, sleepround_past hlate]
      next hlate =>
        obtain hover | hlater | hboth := h
        · exact absurd hover hpeak
        · exact absurd hlater hlate
        · exact absurd hboth.1 hnorm

theorem socketlinkPass_kept (hpos : 0 < a.recvfrom) (h : ¬ Ends sl a) :
    socketlinkPass sl a =
      ({ sl with lasttime := a.checked, lastsize := counted sl a },
        [forward a.recvfrom.toNat a.sent.micros]) := by
  have hnot : ¬ a.recvfrom ≤ 0 := by omega
  have hcounted : (sl.lastsize + a.recvfrom.toNat) % 2 ^ 32 = counted sl a := rfl
  rw [Ends, not_or, not_or, not_and, Late] at h
  rw [socketlinkPass, if_neg hnot]
  simp only [accountDatagram, hcounted]
  rw [if_neg h.1]
  split
  next hnorm => rw [if_neg h.2.1, if_neg (h.2.2 hnorm)]
  next hnorm => rw [if_neg h.2.1]

/-- Traffic begins with a datagram, if with anything. -/
theorem socketlinkHandle_begins :
    socketlinkHandle sl as = [] ∨ ∃ n t rest, socketlinkHandle sl as = forward n t :: rest := by
  induction as generalizing sl with
  | nil => exact .inl rfl
  | cons a as ih =>
      rw [socketlinkHandle]
      by_cases hpos : 0 < a.recvfrom
      · apply Or.inr
        by_cases hends : Ends sl a
        · rw [socketlinkPass_ends hpos hends]
          exact ⟨_, _, _, rfl⟩
        · rw [socketlinkPass_kept hpos hends]
          exact ⟨_, _, _, rfl⟩
      · rw [socketlinkPass_idle (by omega)]
        exact ih

/-- So a round that goes on does not look like one that ends. -/
theorem socketlinkHandle_ne_ends {rest : List Event} :
    socketlinkHandle sl as ≠ sleepround d ++ [reset t] ++ rest := by
  intro heq
  obtain hnil | ⟨n, t', rest', hforward⟩ := @socketlinkHandle_begins sl as
  · rw [hnil] at heq
    unfold sleepround at heq
    split at heq
    · cases heq
    · cases heq
  · rw [hforward] at heq
    unfold sleepround at heq
    split at heq
    · cases heq
    · cases heq

theorem socketlinkHandle_idle (h : a.recvfrom ≤ 0) :
    socketlinkHandle sl (a :: as) = socketlinkHandle sl as := by
  rw [socketlinkHandle, socketlinkPass_idle h]
  rfl

theorem socketlinkHandle_ends (hpos : 0 < a.recvfrom) (h : Ends sl a) :
    socketlinkHandle sl (a :: as) = forward a.recvfrom.toNat a.sent.micros ::
      (sleepround (sl.roundtime - timediff sl.lastreset a.checked) ++ [reset a.cleared.micros] ++
        socketlinkHandle (ended sl a) as) := by
  rw [socketlinkHandle, socketlinkPass_ends hpos h]
  rfl

theorem socketlinkHandle_kept (hpos : 0 < a.recvfrom) (h : ¬ Ends sl a) :
    socketlinkHandle sl (a :: as) = forward a.recvfrom.toNat a.sent.micros ::
      socketlinkHandle { sl with lasttime := a.checked, lastsize := counted sl a } as := by
  rw [socketlinkHandle, socketlinkPass_kept hpos h]
  rfl

/-- The flag of a link that is otherwise the same. -/
theorem noPeak_iff (sl : Socketlink) (as : List Arrival) :
    socketlinkHandle { sl with lastwaspeak := true } as =
        socketlinkHandle { sl with lastwaspeak := false } as ↔
      NoPeak sl.normrate sl.peakrate sl.roundtime sl.lastreset sl.lastsize as := by
  induction as generalizing sl with
  | nil => exact iff_of_true rfl trivial
  | cons a as ih =>
      rw [NoPeak]
      by_cases hpos : 0 < a.recvfrom
      · rw [if_neg (by omega)]
        by_cases hends : sl.peakrate < counted sl a ∨ Late sl.roundtime sl.lastreset a
        · have hboth : ∀ peak, Ends { sl with lastwaspeak := peak } a :=
            fun _ => hends.imp_right Or.inl
          rw [socketlinkHandle_ends hpos (hboth true), socketlinkHandle_ends hpos (hboth false)]
          exact iff_of_true rfl (hends.imp_right Or.inl)
        · rw [not_or] at hends
          have hkept : ¬ Ends { sl with lastwaspeak := false } a := by
            intro h
            obtain hover | hlate | hflag := h
            · exact hends.1 hover
            · exact hends.2 hlate
            · cases hflag.2
          have hcounted : (sl.lastsize + a.recvfrom.toNat) % 2 ^ 32 = counted sl a := rfl
          rw [socketlinkHandle_kept hpos hkept]
          dsimp only
          rw [hcounted, or_iff_right hends.1, or_iff_right hends.2]
          by_cases hpeak : sl.normrate < counted sl a
          · have hended : Ends { sl with lastwaspeak := true } a := .inr (.inr ⟨hpeak, rfl⟩)
            rw [socketlinkHandle_ends hpos hended]
            refine iff_of_false (fun heq => ?_) (fun h => Nat.not_le_of_lt hpeak h.1)
            exact socketlinkHandle_ne_ends (List.cons.inj heq).2.symm
          · have hkept' : ¬ Ends { sl with lastwaspeak := true } a := by
              intro h
              obtain hover | hlate | hflag := h
              · exact hends.1 hover
              · exact hends.2 hlate
              · exact hpeak hflag.1
            rw [socketlinkHandle_kept hpos hkept']
            have hrest := ih { sl with lasttime := a.checked, lastsize := counted sl a }
            constructor
            · intro heq
              exact ⟨Nat.le_of_not_lt hpeak, hrest.mp (List.cons.inj heq).2⟩
            · intro h
              exact congrArg (List.cons _) (hrest.mpr h.2)
      · rw [if_pos (by omega), socketlinkHandle_idle (by omega),
          socketlinkHandle_idle (by omega)]
        exact ih sl

/-- Where nothing is over a rate, only the instants of the resets count. -/
theorem socketlinkHandle_unlimited {sl sl' : Socketlink} (hnorm : sl.normrate = 2 ^ 32 - 1)
    (hpeak : sl.peakrate = 2 ^ 32 - 1) (hnorm' : sl'.normrate = 2 ^ 32 - 1)
    (hpeak' : sl'.peakrate = 2 ^ 32 - 1) (hround : sl.roundtime = sl'.roundtime)
    (hreset : sl.lastreset = sl'.lastreset) :
    socketlinkHandle sl as = socketlinkHandle sl' as := by
  induction as generalizing sl sl' with
  | nil => rfl
  | cons a as ih =>
      by_cases hpos : 0 < a.recvfrom
      · have hlate : ∀ {sl : Socketlink}, sl.normrate = 2 ^ 32 - 1 → sl.peakrate = 2 ^ 32 - 1 →
            (Ends sl a ↔ Late sl.roundtime sl.lastreset a) := by
          intro sl hnorm hpeak
          have hlt := @counted_lt sl a
          rw [Ends]
          constructor
          · intro h
            obtain hover | hlate | hflag := h
            · omega
            · exact hlate
            · omega
          · exact fun h => .inr (.inl h)
        by_cases hends : Ends sl a
        · have hends' : Ends sl' a := by
            rw [hlate hnorm' hpeak', ← hround, ← hreset]
            exact (hlate hnorm hpeak).mp hends
          have hrest := @ih (ended sl a) (ended sl' a) hnorm hpeak hnorm' hpeak' hround rfl
          rw [socketlinkHandle_ends hpos hends, socketlinkHandle_ends hpos hends', hround, hreset,
            hrest]
        · have hends' : ¬ Ends sl' a := by
            rw [hlate hnorm' hpeak', ← hround, ← hreset]
            exact fun h => hends ((hlate hnorm hpeak).mpr h)
          rw [socketlinkHandle_kept hpos hends, socketlinkHandle_kept hpos hends']
          exact congrArg (List.cons _) (ih hnorm hpeak hnorm' hpeak' hround hreset)
      · rw [socketlinkHandle_idle (by omega), socketlinkHandle_idle (by omega)]
        exact ih hnorm hpeak hnorm' hpeak' hround hreset

/-- Some memory brings the counter to any value. -/
theorem exists_counted (a : Arrival) {size : Nat} (h : size < 2 ^ 32) :
    ∃ lastsize : UInt32, (lastsize.toNat + a.recvfrom.toNat) % 2 ^ 32 = size := by
  refine ⟨UInt32.ofNat ((size + 2 ^ 32 - a.recvfrom.toNat % 2 ^ 32) % 2 ^ 32), ?_⟩
  rw [UInt32.toNat_ofNat']
  omega

theorem not_ends_zero (hzero : counted sl a = 0) (hlate : ¬ Late sl.roundtime sl.lastreset a) :
    ¬ Ends sl a := by
  intro h
  rw [Ends, hzero] at h
  obtain hover | hround | hflag := h
  · omega
  · exact hlate hround
  · omega

end

section

variable {normrate peakrate roundtime : UInt32} {lastreset : Timeval} {a : Arrival}
  {as : List Arrival} {memory : Garbage}

/-- The traffic from a first datagram that ends the round. -/
theorem newSocketlink_ends (as : List Arrival) (hpos : 0 < a.recvfrom)
    (h : Ends (newSocketlink memory normrate peakrate roundtime lastreset) a) :
    ∃ peak, (peak = true ↔
        peakrate.toNat < (memory.lastsize.toNat + a.recvfrom.toNat) % 2 ^ 32 ∨
          normrate.toNat < (memory.lastsize.toNat + a.recvfrom.toNat) % 2 ^ 32) ∧
      socketlinkHandle (newSocketlink memory normrate peakrate roundtime lastreset) (a :: as) =
        forward a.recvfrom.toNat a.sent.micros ::
          (sleepround (roundtime.toNat - timediff lastreset a.checked) ++
              [reset a.cleared.micros] ++
            socketlinkHandle ⟨normrate.toNat, peakrate.toNat, roundtime.toNat, peak, a.checked,
              a.restarted, 0⟩ as) :=
  ⟨_, decide_eq_true_iff, socketlinkHandle_ends hpos h⟩

/-- Where something can be over a rate, the largest counter is. -/
theorem over_of_limited (hlimit : ¬ Unlimited normrate peakrate) :
    peakrate.toNat < 2 ^ 32 - 1 ∨ normrate.toNat < 2 ^ 32 - 1 := by
  have hnorm := normrate.toNat_lt
  have hpeak := peakrate.toNat_lt
  rw [Unlimited] at hlimit
  omega

theorem ignoresGarbage_late (hpos : 0 < a.recvfrom) (hlimit : ¬ Unlimited normrate peakrate)
    (hlate : Late roundtime.toNat lastreset a) :
    IgnoresGarbage normrate peakrate roundtime lastreset (a :: as) ↔
      NoPeak normrate.toNat peakrate.toNat roundtime.toNat a.restarted 0 as := by
  have hflag := noPeak_iff ⟨normrate.toNat, peakrate.toNat, roundtime.toNat, false, a.checked,
    a.restarted, 0⟩ as
  have hends : ∀ memory, Ends (newSocketlink memory normrate peakrate roundtime lastreset) a :=
    fun _ => .inr (.inl hlate)
  rw [← hflag]
  constructor
  · intro h
    obtain ⟨least, hleast⟩ := @exists_counted a 0 (by decide)
    obtain ⟨most, hmost⟩ := @exists_counted a (2 ^ 32 - 1) (by decide)
    obtain ⟨peak, hpeak, htraffic⟩ := newSocketlink_ends as hpos (hends ⟨0, ⟨0, 0⟩, most⟩)
    obtain ⟨peak', hpeak', htraffic'⟩ := newSocketlink_ends as hpos (hends ⟨0, ⟨0, 0⟩, least⟩)
    have hset : peak = true := hpeak.mpr (by rw [hmost]; exact over_of_limited hlimit)
    have hclear : peak' = false := by
      rw [← Bool.not_eq_true, hpeak', hleast]
      omega
    have heq := h ⟨0, ⟨0, 0⟩, most⟩ ⟨0, ⟨0, 0⟩, least⟩
    rw [htraffic, htraffic', hset, hclear] at heq
    exact List.append_cancel_left (List.cons.inj heq).2
  · intro h memory memory'
    obtain ⟨peak, -, htraffic⟩ := newSocketlink_ends as hpos (hends memory)
    obtain ⟨peak', -, htraffic'⟩ := newSocketlink_ends as hpos (hends memory')
    rw [htraffic, htraffic']
    cases peak with
    | true =>
        cases peak' with
        | true => rfl
        | false => rw [h]
    | false =>
        cases peak' with
        | true => rw [h]
        | false => rfl

/-- In a round that has just begun, the one memory goes on and the other ends it. -/
theorem not_ignoresGarbage_early (hpos : 0 < a.recvfrom)
    (hlimit : ¬ Unlimited normrate peakrate) (hlate : ¬ Late roundtime.toNat lastreset a) :
    ¬ IgnoresGarbage normrate peakrate roundtime lastreset (a :: as) := by
  intro h
  obtain ⟨least, hleast⟩ := @exists_counted a 0 (by decide)
  obtain ⟨most, hmost⟩ := @exists_counted a (2 ^ 32 - 1) (by decide)
  have hkept : ¬ Ends (newSocketlink ⟨0, ⟨0, 0⟩, least⟩ normrate peakrate roundtime lastreset) a :=
    not_ends_zero hleast hlate
  have hended : Ends (newSocketlink ⟨1, ⟨0, 0⟩, most⟩ normrate peakrate roundtime lastreset) a := by
    have hover := over_of_limited hlimit
    rw [← hmost] at hover
    exact hover.imp_right fun hnorm => .inr ⟨hnorm, rfl⟩
  have heq := h ⟨0, ⟨0, 0⟩, least⟩ ⟨1, ⟨0, 0⟩, most⟩
  rw [socketlinkHandle_kept hpos hkept, socketlinkHandle_ends hpos hended] at heq
  exact socketlinkHandle_ne_ends (List.cons.inj heq).2

end

/-- The first round does not depend on the memory if nothing is over a rate, or if it is over
before the first datagram and no peak follows; and in no other case. -/
theorem firstRound_iff (normrate peakrate roundtime : UInt32) (lastreset : Timeval)
    (arrivals : List Arrival) :
    IgnoresGarbage normrate peakrate roundtime lastreset arrivals ↔
      Unlimited normrate peakrate ∨
        StartsLate normrate.toNat peakrate.toNat roundtime.toNat lastreset arrivals := by
  by_cases hlimit : Unlimited normrate peakrate
  · refine iff_of_true (fun memory memory' => ?_) (.inl hlimit)
    exact socketlinkHandle_unlimited hlimit.1 hlimit.2 hlimit.1 hlimit.2 rfl rfl
  rw [or_iff_right hlimit]
  induction arrivals with
  | nil => exact iff_of_true (fun _ _ => rfl) trivial
  | cons a as ih =>
      rw [StartsLate]
      by_cases hpos : 0 < a.recvfrom
      · rw [if_neg (by omega)]
        by_cases hlate : Late roundtime.toNat lastreset a
        · rw [and_iff_right hlate]
          exact ignoresGarbage_late hpos hlimit hlate
        · exact iff_of_false (not_ignoresGarbage_early hpos hlimit hlate) fun h => hlate h.1
      · rw [if_pos (by omega), ← ih]
        refine forall₂_congr fun memory memory' => ?_
        rw [socketlinkHandle_idle (by omega), socketlinkHandle_idle (by omega)]

/-- One byte half a second after the start: with a large counter in the memory the other half
is slept. -/
theorem firstRound_sleeps : ¬ IgnoresGarbage 100 200 1000000 ⟨0, 0⟩
    [⟨1, ⟨0, 500000⟩, ⟨0, 500000⟩, ⟨1, 0⟩, ⟨1, 0⟩⟩] := by
  intro h
  have hzero := h ⟨0, ⟨0, 0⟩, 0⟩ ⟨0, ⟨0, 0⟩, 1000⟩
  exact absurd hzero (by decide)

end Jailkit.Socketd
