import Mathlib.Data.Fintype.Card
import Mathlib.Data.Set.Finite.Basic
import Mathlib.Logic.Relation

/-!
Graphs given by the list of successors of each node, and lists in which the successors of a
node come before it.
-/
namespace Jailkit

section

variable {α : Type} (next : α → List α)

/-- What comes right below a node. -/
def Next (y x : α) : Prop := y ∈ next x

/-- Equal to a root or below it. -/
def ReachedFrom (roots : List α) (x : α) : Prop :=
  ∃ r ∈ roots, Relation.ReflTransGen (Next next) x r

/-- Each node stands behind its successors. -/
def BelowFirst (l : List α) : Prop := ∀ pre x post, l = pre ++ x :: post → next x ⊆ pre

variable {next} {x y : α} {roots nodes l : List α}

theorem reachedFrom_root (h : x ∈ roots) : ReachedFrom next roots x := ⟨x, h, .refl⟩

theorem reachedFrom_next (h : ReachedFrom next roots x) (hy : y ∈ next x) : ReachedFrom next roots y := by
  obtain ⟨r, hr, hx⟩ := h
  exact ⟨r, hr, .head hy hx⟩

theorem acc_below (h : Acc (Next next) x) (hy : Relation.ReflTransGen (Next next) y x) :
    Acc (Next next) y := by
  induction hy using Relation.ReflTransGen.head_induction_on with
  | refl => exact h
  | head hstep _ ih => exact ih.inv hstep

/-- Where every way down ends there is no circle. -/
theorem no_circle_of_acc (h : Acc (Next next) x) : ¬ Relation.TransGen (Next next) x x := by
  induction h with
  | intro x _ ih =>
      intro hcircle
      obtain ⟨b, hb, hstep⟩ := Relation.TransGen.tail'_iff.mp hcircle
      exact ih b hstep (.head' hstep hb)

/-- In a finite graph the ways down end where they meet no circle. -/
theorem acc_of_no_circle (hnodes : ∀ x, next x ⊆ nodes)
    (h : ∀ y, Relation.ReflTransGen (Next next) y x → ¬ Relation.TransGen (Next next) y y) :
    Acc (Next next) x := by
  let Below := { y // Relation.ReflTransGen (Next next) y x }
  have hfinite : Finite Below := by
    apply Set.Finite.subset (List.finite_toSet (x :: nodes))
    intro y hy
    cases Relation.ReflTransGen.cases_head hy with
    | inl heq => exact heq ▸ List.mem_cons_self
    | inr hstep =>
        obtain ⟨z, hyz, -⟩ := hstep
        exact List.mem_cons_of_mem x (hnodes z hyz)
  let r : Below → Below → Prop := fun a b => Relation.TransGen (Next next) a.1 b.1
  have htrans : IsTrans Below r := ⟨fun _ _ _ hab hbc => hab.trans hbc⟩
  have hirrefl : Std.Irrefl r := ⟨fun a hcircle => h a.1 a.2 hcircle⟩
  have hwf : WellFounded r := Finite.wellFounded_of_trans_of_irrefl r
  have hall : ∀ a : Below, Acc (Next next) a.1 := by
    intro a
    induction a using hwf.induction with
    | _ a ih => exact Acc.intro _ fun y hy => ih ⟨y, .head hy a.2⟩ (.single hy)
  exact hall ⟨x, .refl⟩

theorem belowFirst_snoc (h : BelowFirst next l) (hx : next x ⊆ l) : BelowFirst next (l ++ [x]) := by
  intro pre y post heq
  cases post using List.reverseRecOn with
  | nil =>
      obtain ⟨hpre, hy⟩ := List.append_inj' heq rfl
      rw [← hpre, ← (List.cons.inj hy).1]
      exact hx
  | append_singleton post z =>
      rw [← List.cons_append, ← List.append_assoc] at heq
      exact h pre y post (List.append_inj' heq rfl).1

end

end Jailkit
