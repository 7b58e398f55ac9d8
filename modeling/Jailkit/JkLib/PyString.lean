import Jailkit.Lib.Text

/-!
The string and file functions of Python that the tools read their tables with.
-/
namespace Jailkit.JkLib

/-- `string.find`: where the first occurrence of `sub` starts. -/
def find (sub : Text) : Text → Option Nat
  | [] => if sub = [] then some 0 else none
  | c :: s => if sub <+: c :: s then some 0 else (find sub s).map (· + 1)

/-- What `readline` returns until the file ends, each line with its newline. -/
def readlines : Text → List Text
  | [] => []
  | c :: t =>
      if c = '\n' then [c] :: readlines t
      else
        match readlines t with
        | [] => [[c]]
        | l :: ls => (c :: l) :: ls

def splitItems (inputstr : Text) : List Text := (inputstr.splitOn ',').map trim

/-- `test_numitem_exist`; `content` is `none` where the file cannot be opened. -/
def testNumitemExist (item : Text) (num : Nat) (content : Option Text) : Bool :=
  match content with
  | none => false
  | some text =>
      (readlines text).any fun line => ((line.splitOn ':')[num]?) == some item

def testUserExist (user : Text) (content : Option Text) : Bool :=
  testNumitemExist user 0 content

theorem find_cons (sub : Text) (c : Char) (s : Text) :
    find sub (c :: s) =
      if sub <+: c :: s then some 0 else (find sub s).map (· + 1) := rfl

theorem find_eq_none_iff (sub s : Text) :
    find sub s = none ↔ ∀ i, ¬ sub <+: s.drop i := by
  induction s with
  | nil =>
      rw [find]
      split
      next h => simp [h]
      next h => simp [h]
  | cons c s ih =>
      rw [find]
      split
      next h =>
        constructor
        · intro hnone
          cases hnone
        · intro hall
          exact absurd h (hall 0)
      next h =>
        rw [Option.map_eq_none_iff, ih]
        constructor
        · intro hall i
          cases i with
          | zero => exact h
          | succ i => exact hall i
        · intro hall i
          exact hall (i + 1)

theorem find_eq_some_iff (sub s : Text) (i : Nat) :
    find sub s = some i ↔
      i ≤ s.length ∧ sub <+: s.drop i ∧ ∀ j, j < i → ¬ sub <+: s.drop j := by
  induction s generalizing i with
  | nil =>
      rw [find]
      split
      next h =>
        subst h
        constructor
        · intro heq
          cases heq
          exact ⟨Nat.le_refl _, List.nil_prefix, fun j hj => absurd hj (Nat.not_lt_zero j)⟩
        · intro ⟨hle, _⟩
          rw [Nat.le_zero.mp hle]
      next h => simp [h]
  | cons c s ih =>
      rw [find]
      split
      next h =>
        constructor
        · intro heq
          cases heq
          exact ⟨Nat.zero_le _, h, fun j hj => absurd hj (Nat.not_lt_zero j)⟩
        · intro ⟨_, _, hfirst⟩
          cases i with
          | zero => rfl
          | succ i => exact absurd h (hfirst 0 (Nat.succ_pos i))
      next h =>
        rw [Option.map_eq_some_iff]
        constructor
        · intro ⟨k, hk, heq⟩
          obtain ⟨hle, hsub, hfirst⟩ := (ih k).mp hk
          subst heq
          refine ⟨Nat.succ_le_succ hle, hsub, fun j hj => ?_⟩
          cases j with
          | zero => exact h
          | succ j => exact hfirst j (Nat.lt_of_succ_lt_succ hj)
        · intro ⟨hle, hsub, hfirst⟩
          cases i with
          | zero => exact absurd hsub h
          | succ i =>
              refine ⟨i, (ih i).mpr ⟨Nat.le_of_succ_le_succ hle, hsub, fun j hj => ?_⟩, rfl⟩
              exact hfirst (j + 1) (Nat.succ_lt_succ hj)

/-- A last byte that `sub` does not have makes no difference. -/
theorem find_snoc {sub : Text} {c : Char} (hsub : sub ≠ []) (hc : c ∉ sub) (s : Text) :
    find sub (s ++ [c]) = find sub s := by
  have hpre : ∀ t, sub <+: t ++ [c] ↔ sub <+: t := by
    intro t
    rw [List.prefix_concat_iff]
    refine ⟨fun h => h.resolve_left fun heq => hc (by rw [heq]; simp), Or.inr⟩
  induction s with
  | nil =>
      have hnil := hpre []
      rw [List.prefix_nil, List.nil_append] at hnil
      rw [List.nil_append, find_cons, if_neg fun h => hsub (hnil.mp h), find, if_neg hsub]
      rfl
  | cons d s ih =>
      have hcons := hpre (d :: s)
      rw [List.cons_append] at hcons
      rw [List.cons_append, find_cons, find_cons, ih]
      simp only [hcons]

theorem readlines_newline (t : Text) : readlines ('\n' :: t) = ['\n'] :: readlines t := rfl

theorem readlines_endsLine {a : Text} (h : EndsLine a) (t : Text) :
    readlines (a ++ t) = readlines a ++ readlines t := by
  induction a with
  | nil => rfl
  | cons c a ih =>
      have ha : a = [] ∧ c = '\n' ∨ a ≠ [] ∧ EndsLine a := by
        cases h with
        | inl h => cases h
        | inr h =>
            obtain ⟨t', ht'⟩ := h
            cases t' with
            | nil =>
                cases ht'
                exact Or.inl ⟨rfl, rfl⟩
            | cons d t' =>
                cases ht'
                exact Or.inr ⟨by simp, Or.inr ⟨t', rfl⟩⟩
      cases ha with
      | inl ha =>
          rw [ha.1, ha.2]
          rfl
      | inr ha =>
          have hne : readlines a ≠ [] := by
            cases a with
            | nil => exact absurd rfl ha.1
            | cons d a =>
                rw [readlines]
                split
                · exact List.cons_ne_nil _ _
                · split <;> exact List.cons_ne_nil _ _
          rw [List.cons_append, readlines, readlines, ih ha.2]
          split
          · rfl
          · cases hl : readlines a with
            | nil => exact absurd hl hne
            | cons l ls => rfl

theorem readlines_line {line : Text} (hne : line ≠ []) (h : '\n' ∉ line) (t : Text) :
    readlines line = [line] ∧
      readlines (line ++ '\n' :: t) = (line ++ ['\n']) :: readlines t := by
  induction line with
  | nil => exact absurd rfl hne
  | cons c line ih =>
      have hc : c ≠ '\n' := fun heq => h (heq ▸ List.mem_cons_self)
      rw [List.cons_append, readlines, readlines, if_neg hc, if_neg hc]
      cases line with
      | nil => exact ⟨rfl, rfl⟩
      | cons d line =>
          obtain ⟨h₁, h₂⟩ := ih (List.cons_ne_nil d line) fun hm => h (List.mem_cons_of_mem c hm)
          rw [h₁, h₂]
          exact ⟨rfl, rfl⟩

end Jailkit.JkLib
