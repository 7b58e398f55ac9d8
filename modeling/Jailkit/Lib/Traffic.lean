import Mathlib.Algebra.Group.Nat.Defs
import Mathlib.Data.Int.Order.Basic
import Mathlib.Data.List.Basic

/-!
Traffic of a rate limiter: packets that are forwarded, pauses, and the instants
at which the byte counter of a round is cleared. Times are microseconds.

`Paced` is a monitor that reads the traffic from one reset on. It is the whole
contract of a two-level limiter: rounds are spaced, a round stays below its cap,
and the cap drops to the base rate directly after a round above the base rate.
The statements about pairs of rounds and about sliding windows follow from it
alone.
-/
namespace Jailkit.Traffic

inductive Event where
  | forward (size : Nat) (time : Int)
  | pause (length : Int)
  | reset (time : Int)
  deriving DecidableEq, Repr

open Event

def bytes : List Event → Nat
  | [] => 0
  | forward n _ :: es => n + bytes es
  | _ :: es => bytes es

/-- Bytes forwarded between the instants `w₁` and `w₂`, both included. -/
def bytesIn (w₁ w₂ : Int) : List Event → Nat
  | [] => 0
  | forward n t :: es =>
      (if w₁ ≤ t ∧ t ≤ w₂ then n else 0) + bytesIn w₁ w₂ es
  | _ :: es => bytesIn w₁ w₂ es

/-- No counter is cleared inside the stretch. -/
def Unbroken (es : List Event) : Prop := ∀ t, reset t ∉ es

/-- Instants never go back, starting from `now`. -/
def Ordered : Int → List Event → Prop
  | _, [] => True
  | now, forward _ t :: es => now ≤ t ∧ Ordered t es
  | now, pause _ :: es => Ordered now es
  | now, reset t :: es => now ≤ t ∧ Ordered t es

/-- The rates a limiter is held to: `slack` is the size of the largest packet,
which is forwarded before it is counted. -/
structure Rates where
  base : Nat
  peak : Nat
  slack : Nat
  round : Int

/-- What a round may carry, given whether the round before it was a peak. -/
def Rates.cap (R : Rates) (afterPeak : Bool) : Nat :=
  (if afterPeak then min R.base R.peak else R.peak) + R.slack

/-- The monitor: `start` is the last reset, `carried` the bytes since then. -/
def Paced (R : Rates) : Int → Bool → Nat → List Event → Prop
  | _, _, _, [] => True
  | start, p, carried, forward n _ :: es =>
      carried + n ≤ R.cap p ∧ Paced R start p (carried + n) es
  | start, p, carried, pause _ :: es => Paced R start p carried es
  | start, _, carried, reset t :: es =>
      R.round ≤ t - start ∧ Paced R t (decide (R.base < carried)) 0 es

theorem Rates.cap_le_peak (R : Rates) (p : Bool) : R.cap p ≤ R.peak + R.slack := by
  cases p with
  | false => exact Nat.le_refl _
  | true => exact Nat.add_le_add_right (Nat.min_le_right _ _) _

theorem Rates.cap_afterPeak (R : Rates) : R.cap true ≤ R.base + R.slack :=
  Nat.add_le_add_right (Nat.min_le_left _ _) _

@[simp] theorem unbroken_nil : Unbroken [] := by simp [Unbroken]

@[simp] theorem unbroken_forward (n : Nat) (t : Int) (es : List Event) :
    Unbroken (forward n t :: es) ↔ Unbroken es := by
  simp [Unbroken]

@[simp] theorem unbroken_pause (d : Int) (es : List Event) :
    Unbroken (pause d :: es) ↔ Unbroken es := by
  simp [Unbroken]

@[simp] theorem not_unbroken_reset (t : Int) (es : List Event) :
    ¬ Unbroken (reset t :: es) := by
  intro h
  exact h t (by simp)

theorem ordered_mono {now now' : Int} (h : now' ≤ now) (es : List Event)
    (ho : Ordered now es) : Ordered now' es := by
  induction es with
  | nil => trivial
  | cons e es ih =>
      cases e with
      | forward n t => exact ⟨Int.le_trans h ho.1, ho.2⟩
      | pause d => exact ih ho
      | reset t => exact ⟨Int.le_trans h ho.1, ho.2⟩

theorem ordered_from_reset {now : Int} (pre post : List Event) (t : Int)
    (h : Ordered now (pre ++ reset t :: post)) : Ordered t post := by
  induction pre generalizing now with
  | nil => exact h.2
  | cons e pre ih =>
      cases e with
      | forward n s => exact ih h.2
      | pause d => exact ih h
      | reset s => exact ih h.2

/-- A stretch that contains a reset splits at its first one. -/
theorem exists_first_reset (es : List Event) (h : ¬ Unbroken es) :
    ∃ pre t post, es = pre ++ reset t :: post ∧ Unbroken pre := by
  induction es with
  | nil => exact absurd unbroken_nil h
  | cons e es ih =>
      cases e with
      | forward n s =>
          obtain ⟨pre, t, post, rfl, hpre⟩ := ih (by simpa using h)
          exact ⟨forward n s :: pre, t, post, rfl, by simpa using hpre⟩
      | pause d =>
          obtain ⟨pre, t, post, rfl, hpre⟩ := ih (by simpa using h)
          exact ⟨pause d :: pre, t, post, rfl, by simpa using hpre⟩
      | reset s => exact ⟨[], s, es, rfl, unbroken_nil⟩

theorem first_reset_unique {pre pre' post post' : List Event} {t t' : Int}
    (hu : Unbroken pre) (hu' : Unbroken pre')
    (h : pre ++ reset t :: post = pre' ++ reset t' :: post') :
    t = t' ∧ post = post' := by
  induction pre generalizing pre' with
  | nil =>
      cases pre' with
      | nil => simpa using h
      | cons e pre' =>
          obtain ⟨he, -⟩ := List.cons.inj h
          exact absurd (by simp [← he]) (hu' t)
  | cons e pre ih =>
      cases pre' with
      | nil =>
          obtain ⟨he, -⟩ := List.cons.inj h
          exact absurd (by simp [he]) (hu t')
      | cons e' pre' =>
          refine @ih pre' (fun s hs => ?_) (fun s hs => ?_) ?_
          · exact hu s (List.mem_cons_of_mem _ hs)
          · exact hu' s (List.mem_cons_of_mem _ hs)
          · exact (List.cons.inj h).2

theorem reset_after_unbroken {es rest pre post : List Event} {t : Int}
    (hu : Unbroken es) (h : es ++ rest = pre ++ reset t :: post) :
    ∃ pre', pre = es ++ pre' ∧ rest = pre' ++ reset t :: post := by
  induction es generalizing pre with
  | nil => exact ⟨pre, rfl, h⟩
  | cons e es ih =>
      cases pre with
      | nil =>
          obtain ⟨he, -⟩ := List.cons.inj h
          exact absurd (by simp [he]) (hu t)
      | cons e' pre =>
          obtain ⟨rfl, htail⟩ := List.cons.inj h
          obtain ⟨pre', rfl, hrest⟩ :=
            ih (fun s hs => hu s (List.mem_cons_of_mem _ hs)) htail
          exact ⟨pre', rfl, hrest⟩

/-- A monitored stretch without a reset leaves the monitor in the same round. -/
theorem paced_unbroken (R : Rates) (start : Int) (p : Bool) (carried : Nat)
    (es rest : List Event) (hu : Unbroken es)
    (h : Paced R start p carried (es ++ rest)) :
    Paced R start p (carried + bytes es) rest ∧
      (carried ≤ R.cap p → carried + bytes es ≤ R.cap p) := by
  induction es generalizing carried with
  | nil => exact ⟨h, id⟩
  | cons e es ih =>
      cases e with
      | forward n t =>
          obtain ⟨hn, htail⟩ := h
          obtain ⟨hr, hc⟩ := ih (carried + n) (by simpa using hu) htail
          simp only [bytes, ← Nat.add_assoc]
          exact ⟨hr, fun _ => hc hn⟩
      | pause d => exact ih carried (by simpa using hu) h
      | reset t => exact absurd hu (not_unbroken_reset t es)

/-- Whatever comes before a reset, the monitor starts afresh at it. -/
theorem paced_from_reset (R : Rates) (pre post : List Event) (t start : Int)
    (p : Bool) (carried : Nat) (h : Paced R start p carried (pre ++ reset t :: post)) :
    ∃ q, Paced R t q 0 post := by
  induction pre generalizing start p carried with
  | nil => exact ⟨_, h.2⟩
  | cons e pre ih =>
      cases e with
      | forward n s => exact ih _ _ _ h.2
      | pause d => exact ih _ _ _ h
      | reset s => exact ih _ _ _ h.2

theorem bytesIn_past (w₁ w₂ now : Int) (es : List Event) (h : w₂ < now)
    (ho : Ordered now es) : bytesIn w₁ w₂ es = 0 := by
  induction es generalizing now with
  | nil => rfl
  | cons e es ih =>
      cases e with
      | forward n t =>
          have ht : ¬ (w₁ ≤ t ∧ t ≤ w₂) := by have := ho.1; omega
          simp only [bytesIn, if_neg ht, Nat.zero_add]
          exact ih t (lt_of_lt_of_le h ho.1) ho.2
      | pause d => exact ih now h ho
      | reset t => exact ih t (lt_of_lt_of_le h ho.1) ho.2

section Window
variable (R : Rates) {w₁ w₂ : Int} (short : w₂ - w₁ < R.round)
include short

/-- A round that begins inside the window is the last one the window meets. -/
theorem bytesIn_last_round (es : List Event) (start now : Int) (p : Bool)
    (carried : Nat) (hp : Paced R start p carried es) (ho : Ordered now es)
    (hc : carried ≤ R.cap p) (hs : w₁ ≤ start) :
    carried + bytesIn w₁ w₂ es ≤ R.cap p := by
  induction es generalizing now carried with
  | nil => simpa [bytesIn] using hc
  | cons e es ih =>
      cases e with
      | forward n t =>
          have h := ih t (carried + n) hp.2 ho.2 hp.1
          simp only [bytesIn]
          split <;> omega
      | pause d => exact ih now carried hp ho hc
      | reset t =>
          have hlate : w₂ < t := by have := hp.1; omega
          simp only [bytesIn, bytesIn_past w₁ w₂ t es hlate ho.2, Nat.add_zero]
          exact hc

/-- The induction behind the window bound: `seen` bytes of the current round
already lie in the window. Two adjacent rounds are all that a short window can
meet, and only one of them can be above the base rate. -/
theorem bytesIn_window_aux (es : List Event)
    (start now : Int) (p : Bool) (carried seen : Nat)
    (hp : Paced R start p carried es) (ho : Ordered now es)
    (hc : carried ≤ R.cap p) (hseen : seen ≤ carried)
    (hnow : 0 < seen → w₁ ≤ now) :
    seen + bytesIn w₁ w₂ es ≤ R.peak + R.base + 2 * R.slack := by
  have hcap (q : Bool) : R.cap q ≤ R.peak + R.slack := R.cap_le_peak q
  induction es generalizing start now p carried seen with
  | nil =>
      have := hcap p
      simp only [bytesIn]
      omega
  | cons e es ih =>
      cases e with
      | forward n t =>
          by_cases hin : w₁ ≤ t ∧ t ≤ w₂
          · have h := ih start t p (carried + n) (seen + n) hp.2 ho.2 hp.1
              (by omega) (fun _ => hin.1)
            simp only [bytesIn, if_pos hin]
            omega
          · have h := ih start t p (carried + n) seen hp.2 ho.2 hp.1
              (by omega) (fun hpos => Int.le_trans (hnow hpos) ho.1)
            simpa only [bytesIn, if_neg hin, Nat.zero_add] using h
      | pause d => exact ih start now p carried seen hp ho hc hseen hnow
      | reset t =>
          simp only [bytesIn]
          rcases Nat.eq_zero_or_pos seen with hzero | hpos
          · subst hzero
            exact ih t t _ 0 0 hp.2 ho.2 (Nat.zero_le _) (Nat.le_refl _)
              (fun h => absurd h (Nat.lt_irrefl _))
          · have hstart : w₁ ≤ t := Int.le_trans (hnow hpos) ho.1
            have h := bytesIn_last_round R short es t t _ 0 hp.2 ho.2
              (Nat.zero_le _) hstart
            have hpcap := hcap p
            by_cases hbase : R.base < carried
            · have hnext := R.cap_afterPeak
              simp only [hbase, decide_true] at h
              omega
            · have hnext := hcap (decide (R.base < carried))
              omega

theorem paced_window (es : List Event) (start now : Int)
    (p : Bool) (hp : Paced R start p 0 es) (ho : Ordered now es) :
    bytesIn w₁ w₂ es ≤ R.peak + R.base + 2 * R.slack := by
  have h := bytesIn_window_aux R short es start now p 0 0 hp ho
    (Nat.zero_le _) (Nat.le_refl _) (fun h => absurd h (Nat.lt_irrefl _))
  omega

end Window

/-- A complete round under the monitor: its length and what it carried. -/
theorem paced_round (R : Rates) (r post : List Event) (t₁ t₂ : Int) (p : Bool)
    (hu : Unbroken r) (h : Paced R t₁ p 0 (r ++ reset t₂ :: post)) :
    R.round ≤ t₂ - t₁ ∧ bytes r ≤ R.cap p ∧
      Paced R t₂ (decide (R.base < bytes r)) 0 post := by
  obtain ⟨hnext, hcap⟩ := paced_unbroken R t₁ p 0 r _ hu h
  simp only [Nat.zero_add] at hnext hcap
  exact ⟨hnext.1, hcap (Nat.zero_le _), hnext.2⟩

end Jailkit.Traffic
