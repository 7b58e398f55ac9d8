import Mathlib.Algebra.BigOperators.Group.Finset.Piecewise
import Mathlib.Algebra.GroupWithZero.Nat
import Mathlib.Data.Fintype.Defs

/-!
Threads that share nothing but the place where their output goes. A thread takes an input
only when it has put out all that the last one gave, and between two outputs of one thread
any number of steps of the others may lie.
-/
namespace Jailkit.Interleaved

/-- A state with the output that is still to come. -/
structure Thread (σ E : Type) where
  state : σ
  pending : List E

/-- One step of the pool: whose it is, and what it takes or puts out. -/
inductive Label (ι I E : Type) where
  | take (i : ι) (input : I)
  | emit (i : ι) (event : E)

section

variable {ι σ I E : Type}

/-- The output of one thread that is alone. -/
def alone (step : σ → I → σ × List E) : σ → List I → List E
  | _, [] => []
  | s, a :: as => (step s a).2 ++ alone step (step s a).1 as

def events : List (Label ι I E) → List E
  | [] => []
  | .take _ _ :: ls => events ls
  | .emit _ e :: ls => e :: events ls

variable [DecidableEq ι]

inductive Step (step : σ → I → σ × List E) (pool : ι → Thread σ E) :
    Label ι I E → (ι → Thread σ E) → Prop where
  | take (i : ι) (input : I) : (pool i).pending = [] →
      Step step pool (.take i input)
        (Function.update pool i ⟨(step (pool i).state input).1, (step (pool i).state input).2⟩)
  | emit (i : ι) (event : E) (rest : List E) : (pool i).pending = event :: rest →
      Step step pool (.emit i event) (Function.update pool i ⟨(pool i).state, rest⟩)

inductive Runs (step : σ → I → σ × List E) :
    (ι → Thread σ E) → List (Label ι I E) → (ι → Thread σ E) → Prop where
  | nil (pool) : Runs step pool [] pool
  | cons {pool pool' pool'' l ls} : Step step pool l pool' → Runs step pool' ls pool'' →
      Runs step pool (l :: ls) pool''

def inputs (i : ι) : List (Label ι I E) → List I
  | [] => []
  | .take j a :: ls => if j = i then a :: inputs i ls else inputs i ls
  | .emit _ _ :: ls => inputs i ls

def outputs (i : ι) : List (Label ι I E) → List E
  | [] => []
  | .take _ _ :: ls => outputs i ls
  | .emit j e :: ls => if j = i then e :: outputs i ls else outputs i ls

variable {step : σ → I → σ × List E} {pool pool' : ι → Thread σ E}
  {ls : List (Label ι I E)}

/-- In every interleaving a thread does what it does alone: what it has put out and what is
still to come make up the output for its inputs. -/
theorem runs_alone (h : Runs step pool ls pool') (i : ι) :
    (pool i).pending ++ alone step (pool i).state (inputs i ls) =
      outputs i ls ++ (pool' i).pending := by
  induction h with
  | nil pool => simp [inputs, outputs, alone]
  | @cons pool mid pool' l ls hstep hruns ih =>
      cases hstep with
      | take j a hnil =>
          by_cases hj : j = i
          · subst hj
            rw [Function.update_self] at ih
            rw [hnil, inputs, if_pos rfl, outputs, alone, List.nil_append]
            exact ih
          · rw [Function.update_of_ne (Ne.symm hj)] at ih
            rw [inputs, if_neg hj, outputs]
            exact ih
      | emit j e rest hpending =>
          by_cases hj : j = i
          · subst hj
            rw [Function.update_self] at ih
            rw [hpending, inputs, outputs, if_pos rfl, List.cons_append, List.cons_append]
            exact congrArg (e :: ·) ih
          · rw [Function.update_of_ne (Ne.symm hj)] at ih
            rw [inputs, outputs, if_neg hj]
            exact ih

/-- What holds of the output that each input gives, and of the rest of an output of which it
holds, holds of what is still to come. -/
theorem runs_pending {P : List E → Prop} (h : Runs step pool ls pool')
    (hstep : ∀ s a, P (step s a).2) (htail : ∀ e es, P (e :: es) → P es)
    (hpool : ∀ i, P (pool i).pending) (i : ι) : P (pool' i).pending := by
  induction h with
  | nil pool => exact hpool i
  | @cons pool mid pool' l ls hl _ ih =>
      apply ih
      intro j
      cases hl with
      | take k a hnil =>
          by_cases hj : j = k
          · subst hj
            rw [Function.update_self]
            exact hstep _ a
          · rw [Function.update_of_ne hj]
            exact hpool j
      | emit k e rest hpending =>
          by_cases hj : j = k
          · subst hj
            rw [Function.update_self]
            exact htail e rest (hpending ▸ hpool j)
          · rw [Function.update_of_ne hj]
            exact hpool j

/-- What is counted of all output is what is counted of each thread's. -/
theorem sum_events [Fintype ι] (count : E → Nat) (ls : List (Label ι I E)) :
    ((events ls).map count).sum = ∑ i, ((outputs i ls).map count).sum := by
  induction ls with
  | nil => exact Finset.sum_const_zero.symm
  | cons l ls ih =>
      cases l with
      | take j a => exact ih
      | emit j e =>
          have hone : ∀ i, ((outputs i (.emit j e :: ls)).map count).sum =
              (if i = j then count e else 0) + ((outputs i ls).map count).sum := by
            intro i
            rw [outputs]
            by_cases hj : j = i
            · rw [if_pos hj, if_pos hj.symm, List.map_cons, List.sum_cons]
            · rw [if_neg hj, if_neg (Ne.symm hj), Nat.zero_add]
          have hmine : ∑ i, (if i = j then count e else 0) = count e := by
            classical exact Fintype.sum_ite_eq' j fun _ => count e
          have hall : ∑ i, ((outputs i (.emit j e :: ls)).map count).sum =
              ∑ i, ((if i = j then count e else 0) + ((outputs i ls).map count).sum) :=
            Finset.sum_congr rfl fun i _ => hone i
          rw [hall, Finset.sum_add_distrib, hmine, ← ih, events, List.map_cons, List.sum_cons]

end

end Jailkit.Interleaved
