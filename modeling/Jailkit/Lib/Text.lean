import Mathlib.Algebra.Group.Int.Defs
import Mathlib.Algebra.Group.Nat.Defs
import Mathlib.Data.List.Basic
import Mathlib.Data.List.TakeWhile

/-!
Byte strings as the C and Python code of this development sees them: a byte is
the `Char` of its code. C strings keep what lies in memory behind their
terminator, because a scanner may read past it.
-/
namespace Jailkit

abbrev Text := List Char

instance : LawfulBEq Text := inferInstance

def nul : Char := Char.ofNat 0

/-- `isspace` in the C locale, and the white space of Python's `strip`. -/
def isspace (c : Char) : Bool :=
  c == ' ' || (9 ≤ c.toNat && c.toNat ≤ 13)

@[simp] theorem isspace_newline : isspace '\n' = true := by decide

theorem isspace_of_isDigit {c : Char} (h : c.isDigit = true) : isspace c = false := by
  simp only [Char.isDigit, Bool.and_eq_true, decide_eq_true_eq, ge_iff_le,
    UInt32.le_iff_toNat_le] at h
  have hspace : c ≠ ' ' := by
    intro heq
    rw [heq] at h
    exact absurd h.1 (by decide)
  have hnat : 48 ≤ c.toNat := h.1
  simp only [isspace, Bool.or_eq_false_iff, beq_eq_false_iff_ne, Bool.and_eq_false_iff,
    decide_eq_false_iff_not]
  exact ⟨hspace, Or.inr (by omega)⟩

/-- A NUL-terminated string together with the memory behind the terminator. -/
structure CString where
  text : Text
  terminated : nul ∉ text
  beyond : Nat → Char

def CString.get (s : CString) (i : Nat) : Char :=
  if h : i < s.text.length then s.text[i]
  else if i = s.text.length then nul
  else s.beyond (i - s.text.length - 1)

/-- What lies in memory behind the copy of a string. -/
abbrev Memory := Text → Nat → Char

/-- The C string found where the bytes `t` are stored: it ends at the first NUL. -/
def cstring (memory : Memory) (t : Text) : CString where
  text := t.takeWhile (· ≠ nul)
  terminated := by
    intro h
    simpa using List.all_eq_true.mp List.all_takeWhile nul h
  beyond := memory t

/-- The text a C function sees in an array that holds `t`. -/
def cText (t : Text) : Text := t.takeWhile (· ≠ nul)

@[simp] theorem cstring_text (memory : Memory) (t : Text) :
    (cstring memory t).text = cText t := rfl

theorem cText_eq_self {t : Text} (h : nul ∉ t) : cText t = t := by
  apply List.takeWhile_eq_self_iff.mpr
  intro c hc
  simpa using fun hnul : c = nul => h (hnul ▸ hc)

theorem CString.get_of_lt (s : CString) {i : Nat} (h : i < s.text.length) :
    s.get i = s.text[i] := by
  simp [CString.get, h]

/-- Blanks removed at both ends. -/
def trim (t : Text) : Text :=
  ((t.dropWhile isspace).reverse.dropWhile isspace).reverse

/-- The text ends a line, so what follows starts one. -/
def EndsLine (t : Text) : Prop := t = [] ∨ ∃ t', t = t' ++ ['\n']

/-- White space within a line. -/
def Blank (t : Text) : Prop := ∀ c ∈ t, isspace c = true ∧ c ≠ '\n'

instance (t : Text) : Decidable (Blank t) :=
  List.decidableBAll (fun c => isspace c = true ∧ c ≠ '\n') t

/-- The bytes that are not white space. -/
def inked (t : Text) : Nat := t.countP fun c => !isspace c

theorem inked_append (t u : Text) : inked (t ++ u) = inked t + inked u :=
  List.countP_append

theorem inked_reverse (t : Text) : inked t.reverse = inked t := List.countP_reverse

theorem inked_dropWhile (t : Text) : inked (t.dropWhile isspace) = inked t := by
  induction t with
  | nil => rfl
  | cons c t ih =>
      cases h : isspace c with
      | true => simpa [inked, h] using ih
      | false => simp [h]

theorem inked_trim (t : Text) : inked (trim t) = inked t := by
  rw [trim, inked_reverse, inked_dropWhile, inked_reverse, inked_dropWhile]

theorem length_trim_le (t : Text) : (trim t).length ≤ t.length := by
  have h₁ := (List.dropWhile_suffix isspace : _ <:+ (t.dropWhile isspace).reverse).length_le
  have h₂ := (List.dropWhile_suffix isspace : _ <:+ t).length_le
  simp only [trim, List.length_reverse] at *
  omega

theorem mem_of_mem_trim {c : Char} {t : Text} (h : c ∈ trim t) : c ∈ t := by
  have h₁ := (List.dropWhile_suffix isspace).subset (List.mem_reverse.mp h)
  exact (List.dropWhile_suffix isspace).subset (List.mem_reverse.mp h₁)

theorem dropWhile_blanks {b : Text} (h : ∀ c ∈ b, isspace c = true) (t : Text) :
    (b ++ t).dropWhile isspace = t.dropWhile isspace := by
  induction b with
  | nil => rfl
  | cons c b ih =>
      rw [List.cons_append, List.dropWhile_cons_of_pos (h c List.mem_cons_self)]
      exact ih fun d hd => h d (List.mem_cons_of_mem c hd)

theorem trim_blanks_append {b : Text} (h : ∀ c ∈ b, isspace c = true) (t : Text) :
    trim (b ++ t) = trim t := by
  rw [trim, dropWhile_blanks h, trim]

theorem trim_append_blanks {b : Text} (h : ∀ c ∈ b, isspace c = true) (t : Text) :
    trim (t ++ b) = trim t := by
  have hrev : ∀ c ∈ b.reverse, isspace c = true := fun c hc => h c (List.mem_reverse.mp hc)
  rw [trim, List.dropWhile_append]
  cases ht : t.dropWhile isspace with
  | nil =>
      have hb : b.dropWhile isspace = [] := by
        have := dropWhile_blanks h []
        rwa [List.append_nil] at this
      simp [trim, ht, hb]
  | cons c t' =>
      simp only [List.isEmpty_cons, Bool.false_eq_true, ite_false, List.reverse_append]
      rw [dropWhile_blanks hrev, trim, ht]

/-- Where there is no white space, nothing is removed. -/
theorem trim_of_solid {t : Text} (h : ∀ c ∈ t, isspace c = false) : trim t = t := by
  have hkeep : ∀ u : Text, (∀ c ∈ u, isspace c = false) → u.dropWhile isspace = u := by
    intro u hu
    cases u with
    | nil => rfl
    | cons c u => exact List.dropWhile_cons_of_neg (by simp [hu c List.mem_cons_self])
  rw [trim, hkeep t h, hkeep t.reverse fun c hc => h c (List.mem_reverse.mp hc),
    List.reverse_reverse]

theorem trimmed_dropWhile {t : Text} (h : trim t = t) : t.dropWhile isspace = t := by
  have hsuf : t.dropWhile isspace <:+ t := List.dropWhile_suffix isspace
  have h₁ := (List.dropWhile_suffix isspace : _ <:+ (t.dropWhile isspace).reverse).length_le
  have hlen : (trim t).length = t.length := by rw [h]
  simp only [trim, List.length_reverse] at hlen h₁
  exact hsuf.eq_of_length_le (by omega)

theorem trimmed_reverse {t : Text} (h : trim t = t) :
    t.reverse.dropWhile isspace = t.reverse := by
  have hd := trimmed_dropWhile h
  rw [trim, hd] at h
  rw [← List.reverse_reverse (List.dropWhile isspace t.reverse), h]

theorem trimmed_head {t t' : Text} {c : Char} (h : trim t = t) (ht : t = c :: t') :
    isspace c = false := by
  have hd := congrArg List.length (trimmed_dropWhile h)
  subst ht
  by_contra hc
  have hc : isspace c = true := by simpa using hc
  have hle := (List.dropWhile_suffix isspace : _ <:+ t').length_le
  simp only [List.dropWhile_cons, hc, ite_true, List.length_cons] at hd
  omega

theorem trimmed_last {t t' : Text} {c : Char} (h : trim t = t) (ht : t = t' ++ [c]) :
    isspace c = false := by
  have hd := congrArg List.length (trimmed_reverse h)
  subst ht
  by_contra hc
  have hc : isspace c = true := by simpa using hc
  have hle := (List.dropWhile_suffix isspace : _ <:+ t'.reverse).length_le
  simp only [List.reverse_append, List.reverse_singleton, List.singleton_append,
    List.dropWhile_cons, hc, ite_true, List.length_cons] at hd
  omega

theorem sublist_dropWhile (p : Char → Bool) {t u : Text} (h : List.Sublist t u) :
    List.Sublist (t.dropWhile p) (u.dropWhile p) := by
  induction h with
  | slnil => exact .slnil
  | @cons t u c h ih =>
      cases hc : p c with
      | true => simpa [hc] using ih
      | false =>
          rw [List.dropWhile_cons_of_neg (by simp [hc])]
          exact ((List.dropWhile_suffix p).sublist.trans h).cons c
  | @cons_cons t u c h ih =>
      cases hc : p c with
      | true => simpa [hc] using ih
      | false => simpa [hc] using h

theorem sublist_trim {t u : Text} (h : List.Sublist t u) :
    List.Sublist (trim t) (trim u) :=
  (sublist_dropWhile isspace (sublist_dropWhile isspace h).reverse).reverse

theorem places_of_byte {v w x y : Text} {c : Char} (h : v ++ c :: x = w ++ c :: y) :
    v = w ∨ (∃ r, w = v ++ c :: r) ∨ ∃ r, v = w ++ c :: r := by
  have hcons : ∀ {a : Text} {x y : Text}, c :: x = a ++ c :: y →
      a = [] ∨ ∃ r, a = c :: r := by
    intro a x y h
    cases a with
    | nil => exact Or.inl rfl
    | cons d a => exact Or.inr ⟨a, by rw [(List.cons.inj h).1]⟩
  cases List.append_eq_append_iff.mp h with
  | inl h =>
      obtain ⟨a, rfl, hx⟩ := h
      cases hcons hx with
      | inl ha => exact Or.inl (by rw [ha, List.append_nil])
      | inr ha =>
          obtain ⟨r, rfl⟩ := ha
          exact Or.inr (Or.inl ⟨r, rfl⟩)
  | inr h =>
      obtain ⟨a, rfl, hx⟩ := h
      cases hcons hx with
      | inl ha => exact Or.inl (by rw [ha, List.append_nil])
      | inr ha =>
          obtain ⟨r, rfl⟩ := ha
          exact Or.inr (Or.inr ⟨r, rfl⟩)

/-- A byte that the second part does not have is in the first. -/
theorem place_in_first {p x v r : Text} {c : Char} (h : p ++ x = v ++ c :: r) (hx : c ∉ x) :
    ∃ r', p = v ++ c :: r' := by
  cases List.append_eq_append_iff.mp h with
  | inl h =>
      obtain ⟨a, -, hx'⟩ := h
      exact absurd (by simp [hx']) hx
  | inr h =>
      obtain ⟨a, rfl, hr⟩ := h
      cases a with
      | nil =>
          have hin : c ∈ x := by
            rw [List.nil_append] at hr
            simp [← hr]
          exact absurd hin hx
      | cons d a =>
          obtain ⟨rfl, -⟩ := List.cons.inj hr
          exact ⟨a, rfl⟩

/-- A field has no separator, and nothing that the line does not have. -/
theorem mem_splitOn {sep : Char} {l f : Text} (h : f ∈ l.splitOn sep) :
    sep ∉ f ∧ ∀ c ∈ f, c ∈ l := by
  induction l generalizing f with
  | nil =>
      rw [List.splitOn_nil] at h
      rw [List.mem_singleton.mp h]
      exact ⟨List.not_mem_nil, fun c hc => hc⟩
  | cons c l ih =>
      have hlater : f ∈ l.splitOn sep → sep ∉ f ∧ ∀ d ∈ f, d ∈ c :: l := by
        intro hf
        exact ⟨(ih hf).1, fun d hd => List.mem_cons_of_mem c ((ih hf).2 d hd)⟩
      rw [List.splitOn_cons_eq_if_modifyHead] at h
      split at h
      · cases List.mem_cons.mp h with
        | inl hnil =>
            rw [hnil]
            exact ⟨List.not_mem_nil, fun d hd => absurd hd List.not_mem_nil⟩
        | inr hf => exact hlater hf
      next hc =>
        have hsep : sep ≠ c := fun heq => hc (by rw [heq]; exact beq_self_eq_true c)
        cases hsplit : l.splitOn sep with
        | nil => exact absurd hsplit (List.splitOn_ne_nil sep l)
        | cons g gs =>
            rw [hsplit, List.modifyHead_cons] at h
            rw [hsplit] at hlater
            cases List.mem_cons.mp h with
            | inr hf => exact hlater (List.mem_cons_of_mem g hf)
            | inl hf =>
                obtain ⟨hg, hin⟩ := ih (f := g) (by rw [hsplit]; exact List.mem_cons_self)
                rw [hf]
                refine ⟨by simp [hsep, hg], fun d hd => ?_⟩
                cases List.mem_cons.mp hd with
                | inl hdc => exact hdc ▸ List.mem_cons_self
                | inr hd => exact List.mem_cons_of_mem c (hin d hd)

end Jailkit
