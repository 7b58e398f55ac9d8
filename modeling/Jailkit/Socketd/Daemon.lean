import Jailkit.Lib.Interleaved
import Jailkit.Socketd.OpenedSockets
import Jailkit.Socketd.WholeRun
import Mathlib.Algebra.BigOperators.Fin
import Mathlib.Algebra.Order.BigOperators.Group.Finset
import Mathlib.Algebra.Order.BigOperators.Group.List

/-!
jk_socketd as a whole: a thread for each socket, all of which send to the one log socket.
-/
namespace Jailkit.Socketd

open Jailkit.Traffic Jailkit.Traffic.Event Interleaved

/-- The options that make one socket instead of those of the configuration. -/
structure OneSocket where
  m_socket : Text
  m_base : Nat
  m_peak : Nat
  m_interval : Interval

/-- The checks of the options, which know no `peek`. -/
def optionRates (o : OneSocket) : FinalRates where
  base := checkBase o.m_base
  peak := if peakOutOfRange o.m_peak (checkBase o.m_base) then 2048 else o.m_peak
  interval := checkInterval o.m_interval

def openSockets (memory : Memory) (scanFloat : Text → Option Interval)
    (opens : NewSocketlink → Bool) (file : Text) : Option OneSocket → List NewSocketlink
  | none => (readConfig memory scanFloat opens file).sl
  | some o =>
      let link : NewSocketlink := ⟨o.m_socket, optionRates o⟩
      if opens link then [link] else []

/-- How `new_socketlink` leaves a socket, in the memory that it has got. -/
structure Creation where
  memory : Garbage
  lastreset : Timeval

def NewSocketlink.made (intOfNan : Nat) (s : NewSocketlink) (c : Creation) : Socketlink :=
  newSocketlink c.memory (.ofNat s.rates.base) (.ofNat s.rates.peak)
    (.ofNat (s.rates.interval.roundtime intOfNan)) c.lastreset

def startThreads (intOfNan : Nat) (sl : List NewSocketlink) (creations : Fin sl.length → Creation) :
    Fin sl.length → Thread Socketlink Event :=
  fun i => ⟨sl[i].made intOfNan (creations i), []⟩

/-- A run of the threads, with what is assumed of the clock and of `recvfrom`. -/
structure DaemonRun (intOfNan : Nat) (sl : List NewSocketlink)
    (creations : Fin sl.length → Creation)
    (ls : List (Label (Fin sl.length) Arrival Event))
    (threads : Fin sl.length → Thread Socketlink Event) : Prop where
  runs : Runs socketlinkPass (startThreads intOfNan sl creations) ls threads
  clocked : ∀ i, Clocked (creations i).lastreset.micros (sl[i].made intOfNan (creations i))
    (inputs i ls)
  sized : ∀ i, ∀ a ∈ inputs i ls, a.recvfrom ≤ bufsize

def datagrams : List Arrival → List Nat
  | [] => []
  | a :: as => if a.recvfrom ≤ 0 then datagrams as else a.recvfrom.toNat :: datagrams as

def sizes : List Event → List Nat
  | [] => []
  | forward n _ :: es => n :: sizes es
  | _ :: es => sizes es

section

variable {memory : Memory} {scanFloat : Text → Option Interval} {opens : NewSocketlink → Bool}
  {file : Text} {o : Option OneSocket} {s : NewSocketlink} {intOfNan : Nat}
  {sl : List NewSocketlink} {creations : Fin sl.length → Creation}
  {ls : List (Label (Fin sl.length) Arrival Event)}
  {threads : Fin sl.length → Thread Socketlink Event} {w₁ w₂ : Int}

theorem alone_eq (s : Socketlink) (arrivals : List Arrival) :
    alone socketlinkPass s arrivals = socketlinkHandle s arrivals := by
  induction arrivals generalizing s with
  | nil => rfl
  | cons a as ih => rw [alone, socketlinkHandle, ih]

theorem optionRates_ranged (o : OneSocket) : Ranged (optionRates o) :=
  have h := rangeChecks_ranged ⟨o.m_base, o.m_peak, o.m_peak, o.m_interval⟩
  have heq : optionRates o = rangeChecks ⟨o.m_base, o.m_peak, o.m_peak, o.m_interval⟩ := by
    simp only [optionRates, rangeChecks, checkPeak]
    split_ifs <;> rfl
  heq ▸ h

theorem openSockets_ranged :
    (openSockets memory scanFloat opens file o).length ≤ maxSockets ∧
      ∀ s ∈ openSockets memory scanFloat opens file o, Ranged s.rates := by
  cases o with
  | none => exact readConfig_ranged memory scanFloat opens file
  | some o =>
      rw [openSockets]
      split
      · refine ⟨?_, List.forall_mem_singleton.mpr (optionRates_ranged o)⟩
        rw [List.length_singleton, maxSockets]
        omega
      · exact ⟨Nat.zero_le _, fun s hs => absurd hs List.not_mem_nil⟩

theorem made_rates (c : Creation) (h : Ranged s.rates) :
    (s.made intOfNan c).normrate = s.rates.base ∧ (s.made intOfNan c).peakrate = s.rates.peak := by
  have hbase := h.baseHigh
  have hpeak := h.peakHigh
  simp only [NewSocketlink.made, newSocketlink, UInt32.toNat_ofNat']
  omega

theorem bytesIn_eq (w₁ w₂ : Int) (es : List Event) :
    bytesIn w₁ w₂ es = (es.map fun e => bytesIn w₁ w₂ [e]).sum := by
  induction es with
  | nil => rfl
  | cons e es ih =>
      cases e with
      | forward n t => simp [bytesIn, ih]
      | pause d => simpa [bytesIn] using ih
      | reset t => simpa [bytesIn] using ih

theorem bytesIn_append (w₁ w₂ : Int) (es es' : List Event) :
    bytesIn w₁ w₂ (es ++ es') = bytesIn w₁ w₂ es + bytesIn w₁ w₂ es' := by
  rw [bytesIn_eq, List.map_append, List.sum_append, ← bytesIn_eq, ← bytesIn_eq]

/-- What a thread has sent is the beginning of what its socket alone would send. -/
theorem DaemonRun.outputs_eq (h : DaemonRun intOfNan sl creations ls threads)
    (i : Fin sl.length) :
    socketlinkHandle (sl[i].made intOfNan (creations i)) (inputs i ls) =
      outputs i ls ++ (threads i).pending := by
  rw [← alone_eq, ← runs_alone h.runs i]
  rfl

theorem DaemonRun.socket_window (h : DaemonRun intOfNan sl creations ls threads)
    (i : Fin sl.length) (hranged : Ranged sl[i].rates)
    (hshort : w₂ - w₁ < (sl[i].made intOfNan (creations i)).roundtime) :
    bytesIn w₁ w₂ (outputs i ls) ≤ sl[i].rates.peak + sl[i].rates.base + 4 * bufsize := by
  obtain ⟨hbase, hpeak⟩ := @made_rates _ intOfNan (creations i) hranged
  have hunused : Unused (sl[i].made intOfNan (creations i)) (creations i).lastreset.micros
      (creations i).lastreset.micros := ⟨le_refl _, le_refl _⟩
  have hlow : (sl[i].made intOfNan (creations i)).peakrate ≤ 10000000 := hpeak ▸ hranged.peakHigh
  have hwindow := unused_window hunused hlow (h.sized i) (h.clocked i) hshort
  rw [h.outputs_eq i, bytesIn_append, hbase, hpeak] at hwindow
  omega

theorem sizes_append (es es' : List Event) : sizes (es ++ es') = sizes es ++ sizes es' := by
  induction es with
  | nil => rfl
  | cons e es ih =>
      cases e with
      | forward n t => exact congrArg (n :: ·) ih
      | pause d => exact ih
      | reset t => exact ih

/-- A datagram is sent once, before anything else of its pass. -/
theorem sizes_pass (s : Socketlink) (a : Arrival) :
    sizes (socketlinkPass s a).2 = if a.recvfrom ≤ 0 then [] else [a.recvfrom.toNat] := by
  have hreset : ∀ s a peak, sizes (resetRound s a peak).2 = [] := fun _ _ _ => rfl
  have hsleep : ∀ s a, sizes (sleepAndReset s a).2 = [] := by
    intro s a
    rw [sleepAndReset, sizes_append, hreset, List.append_nil, sleepround]
    split <;> rfl
  have haccount : ∀ s, sizes (accountDatagram s a).2 = [] := by
    intro s
    rw [accountDatagram]
    split_ifs
    · exact hsleep s a
    · exact hreset s a true
    · exact hsleep s a
    · rfl
    · exact hreset s a false
    · rfl
  rw [socketlinkPass]
  split
  · rfl
  · exact congrArg (a.recvfrom.toNat :: ·) (haccount _)

theorem sizes_handle (s : Socketlink) (arrivals : List Arrival) :
    sizes (socketlinkHandle s arrivals) = datagrams arrivals := by
  induction arrivals generalizing s with
  | nil => rfl
  | cons a as ih =>
      rw [socketlinkHandle, sizes_append, ih, sizes_pass, datagrams]
      split <;> rfl

end

/-- However the threads are scheduled, each datagram that has been read from a socket is sent
on once and in order; one per thread at most is still to be sent. -/
theorem daemon_forwards (intOfNan : Nat) (sl : List NewSocketlink)
    (creations : Fin sl.length → Creation) (ls : List (Label (Fin sl.length) Arrival Event))
    (threads : Fin sl.length → Thread Socketlink Event)
    (hruns : Runs socketlinkPass (startThreads intOfNan sl creations) ls threads)
    (i : Fin sl.length) :
    datagrams (inputs i ls) = sizes (outputs i ls) ++ sizes (threads i).pending ∧
      (sizes (threads i).pending).length ≤ 1 := by
  constructor
  · have halone := congrArg sizes (runs_alone hruns i)
    rw [alone_eq, sizes_append, sizes_append, sizes_handle] at halone
    exact halone
  · refine runs_pending (P := fun es => (sizes es).length ≤ 1) hruns ?_ ?_ ?_ i
    · intro s a
      rw [sizes_pass]
      split <;> simp
    · intro e es h
      cases e with
      | forward n t => exact Nat.le_of_succ_le h
      | pause d => exact h
      | reset t => exact h
    · exact fun _ => Nat.zero_le 1

/-- Whatever the configuration says and however the threads are scheduled, from the start on
and whatever memory the sockets were made in: a window shorter than each round carries to the
log socket a peak and a base for each socket at most, with four datagrams. -/
theorem daemon_window (memory : Memory) (scanFloat : Text → Option Interval)
    (opens : NewSocketlink → Bool) (file : Text) (o : Option OneSocket)
    (intOfNan : Nat) (sl : List NewSocketlink) (creations : Fin sl.length → Creation)
    (ls : List (Label (Fin sl.length) Arrival Event))
    (threads : Fin sl.length → Thread Socketlink Event) (w₁ w₂ : Int)
    (hsl : sl = openSockets memory scanFloat opens file o)
    (hrun : DaemonRun intOfNan sl creations ls threads)
    (hshort : ∀ i : Fin sl.length, w₂ - w₁ < (sl[i].made intOfNan (creations i)).roundtime) :
    bytesIn w₁ w₂ (events ls) ≤
        (sl.map fun s => s.rates.peak + s.rates.base + 4 * bufsize).sum ∧
      (sl.map fun s => s.rates.peak + s.rates.base + 4 * bufsize).sum ≤
        maxSockets * (10000000 + 1000000 + 4 * bufsize) := by
  obtain ⟨hlen, hranged⟩ := hsl ▸ @openSockets_ranged memory scanFloat opens file o
  constructor
  · calc bytesIn w₁ w₂ (events ls)
        = ∑ i, bytesIn w₁ w₂ (outputs i ls) := by
          rw [bytesIn_eq, sum_events]
          exact Finset.sum_congr rfl fun i _ => (bytesIn_eq w₁ w₂ _).symm
      _ ≤ ∑ i : Fin sl.length, (sl[i].rates.peak + sl[i].rates.base + 4 * bufsize) :=
          Finset.sum_le_sum fun i _ =>
            hrun.socket_window i (hranged _ (List.getElem_mem _)) (hshort i)
      _ = _ := Fin.sum_univ_fun_getElem sl fun s => s.rates.peak + s.rates.base + 4 * bufsize
  · have hsum := List.sum_le_card_nsmul
      (sl.map fun s => s.rates.peak + s.rates.base + 4 * bufsize)
      (10000000 + 1000000 + 4 * bufsize) ?_
    · rw [List.length_map, smul_eq_mul] at hsum
      exact hsum.trans (Nat.mul_le_mul_right _ hlen)
    · intro n hn
      obtain ⟨s, hs, rfl⟩ := List.mem_map.mp hn
      have hpeak := (hranged s hs).peakHigh
      have hbase := (hranged s hs).baseHigh
      omega

def twoSockets : List NewSocketlink :=
  [⟨"/a".toList, ⟨511, 2048, .seconds 5⟩⟩, ⟨"/b".toList, ⟨511, 2048, .seconds 5⟩⟩]

def mainThread : Fin twoSockets.length := ⟨0, by decide⟩

def otherThread : Fin twoSockets.length := ⟨1, by decide⟩

def usedMemory : Fin twoSockets.length → Creation := fun _ => ⟨⟨1, ⟨0, 0⟩, 4000000000⟩, ⟨0, 0⟩⟩

def tenBytes : Arrival := ⟨10, ⟨0, 10⟩, ⟨0, 20⟩, ⟨5, 0⟩, ⟨5, 10⟩⟩

/-- The second socket sends while the first one is about to. -/
def twoThreads : List (Label (Fin twoSockets.length) Arrival Event) :=
  [.take mainThread tenBytes, .take otherThread tenBytes, .emit otherThread (forward 10 10),
    .emit mainThread (forward 10 10), .emit mainThread (pause 4999980)]

theorem twoThreads_runs :
    ∃ threads, Runs socketlinkPass (startThreads 0 twoSockets usedMemory) twoThreads threads :=
  ⟨_, .cons (.take mainThread tenBytes rfl) (.cons (.take otherThread tenBytes rfl)
    (.cons (.emit otherThread (forward 10 10) [pause 4999980, reset 5000000] (by decide +kernel))
      (.cons (.emit mainThread (forward 10 10) [pause 4999980, reset 5000000] (by decide +kernel))
        (.cons (.emit mainThread (pause 4999980) [reset 5000000] (by decide +kernel)) (.nil _)))))⟩

theorem tenBytes_clocked {s : NewSocketlink} (hs : s ∈ twoSockets) :
    PassClocked 0 (s.made 0 (usedMemory mainThread)) tenBytes := by
  have hevents : (socketlinkPass (s.made 0 (usedMemory mainThread)) tenBytes).2 =
      [forward 10 10, pause 4999980, reset 5000000] := by
    revert s
    decide +kernel
  refine ⟨by decide, by decide, by decide, by decide, fun d hd => ?_⟩
  rw [hevents] at hd
  simp only [List.mem_cons, reduceCtorEq, pause.injEq, List.not_mem_nil, or_false,
    false_or] at hd
  subst hd
  decide

theorem twoThreads_clocked (i : Fin twoSockets.length) :
    Clocked (usedMemory i).lastreset.micros (twoSockets[i].made 0 (usedMemory i))
      (inputs i twoThreads) := by
  have hi : i = mainThread ∨ i = otherThread := by
    revert i
    decide
  rcases hi with rfl | rfl
  · exact ⟨tenBytes_clocked List.mem_cons_self, trivial⟩
  · exact ⟨tenBytes_clocked (List.mem_cons_of_mem _ List.mem_cons_self), trivial⟩

theorem daemon_forwards_two : ∃ threads : Fin twoSockets.length → Thread Socketlink Event,
    datagrams (inputs mainThread twoThreads) =
        sizes (outputs mainThread twoThreads) ++ sizes (threads mainThread).pending ∧
      (sizes (threads mainThread).pending).length ≤ 1 := by
  obtain ⟨threads, hruns⟩ := twoThreads_runs
  exact ⟨threads, daemon_forwards 0 twoSockets usedMemory twoThreads threads hruns mainThread⟩

theorem daemon_window_two : bytesIn 0 4999999 (events twoThreads) ≤ 9214 := by
  obtain ⟨threads, hruns⟩ := twoThreads_runs
  have hrun : DaemonRun 0 twoSockets usedMemory twoThreads threads :=
    ⟨hruns, twoThreads_clocked, by decide⟩
  have h := daemon_window (fun _ _ => nul)
    (fun t => if t = "5".toList then some (.seconds 5) else none) (fun _ => true)
    "[/a]\ninterval=5\n[/b]\ninterval=5\n".toList none 0 twoSockets usedMemory twoThreads threads 0
    4999999 (by decide +kernel) hrun (by decide +kernel)
  exact h.1.trans (by decide +kernel)

end Jailkit.Socketd
