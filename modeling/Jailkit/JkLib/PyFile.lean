import Jailkit.JkLib.PyString
import Mathlib.Data.List.Induction

/-!
Text files as the Python tools read and edit them.
-/
namespace Jailkit.JkLib

def chomp (line : Text) : Text :=
  if line.getLast? = some '\n' then line.dropLast else line

def linesOf (t : Text) : List Text := (readlines t).map chomp

/-- Lines, and behind them the beginning of one that has no end. -/
def unlines (ls : List Text) (rest : Text) : Text :=
  (ls.flatMap fun l => l ++ ['\n']) ++ rest

def lastLine (rest : Text) : List Text := if rest = [] then [] else [rest]

/-- A file that is there or not, and whether it can be opened for writing. -/
structure PyFile where
  content : Option Text
  denied : Bool
  deriving DecidableEq, Repr

/-- `open(file, 'a')`, one `write` and `close`; `none` is an `IOError`. -/
def PyFile.append (f : PyFile) (t : Text) : Option PyFile :=
  if f.denied then none else some { f with content := some (f.content.getD [] ++ t) }

/-- `open(file, 'r+')`: the file has to exist. -/
def PyFile.openUpdate (f : PyFile) : Option Text := if f.denied then none else f.content

def PyFile.lines (f : PyFile) : List Text := linesOf (f.content.getD [])

/-- `seek` and `write`: what is longer than the text written stays behind it. -/
def overwrite (content : Text) (pos : Nat) (t : Text) : Text :=
  content.take pos ++ t ++ content.drop (pos + t.length)

/-- `str` of a number that is not negative. -/
def pyStr (n : Nat) : Text := Nat.toDigits 10 n

def pyDigits (t : Text) : Option Nat :=
  if t ≠ [] ∧ t.all Char.isDigit then some (Nat.ofDigitChars 10 t 0) else none

/-- `int` of a string; `none` is a `ValueError`. -/
def pyInt (t : Text) : Option Int :=
  match trim t with
  | '-' :: t => (pyDigits t).map fun n => -(n : Int)
  | '+' :: t => (pyDigits t).map Int.ofNat
  | t => (pyDigits t).map Int.ofNat

def join (sep : Char) (ls : List Text) : Text := [sep].intercalate ls

/-- The first field of the line is this name. -/
def Names (name line : Text) : Prop := (line.splitOn ':').head? = some name

instance (name line : Text) : Decidable (Names name line) :=
  inferInstanceAs (Decidable (_ = _))

theorem unlines_cons (l : Text) (ls : List Text) (rest : Text) :
    unlines (l :: ls) rest = l ++ '\n' :: unlines ls rest := by
  simp [unlines]

/-- Every text is made of lines in one way. -/
theorem exists_unlines (t : Text) :
    ∃ ls rest, t = unlines ls rest ∧ (∀ l ∈ ls, '\n' ∉ l) ∧ '\n' ∉ rest := by
  induction t with
  | nil => exact ⟨[], [], rfl, fun l hl => absurd hl List.not_mem_nil, by simp⟩
  | cons c t ih =>
      obtain ⟨ls, rest, ht, hls, hrest⟩ := ih
      by_cases hc : c = '\n'
      · refine ⟨[] :: ls, rest, by rw [hc, ht, unlines_cons]; rfl, fun l hl => ?_, hrest⟩
        cases hl with
        | head => simp
        | tail _ hl => exact hls l hl
      · cases ls with
        | nil =>
            refine ⟨[], c :: rest, by rw [ht]; rfl, fun l hl => absurd hl List.not_mem_nil, ?_⟩
            simpa [Ne.symm hc] using hrest
        | cons l ls =>
            refine ⟨(c :: l) :: ls, rest, by rw [ht, unlines_cons, unlines_cons]; rfl, ?_, hrest⟩
            intro l' hl'
            cases hl' with
            | head =>
                have hl := hls l List.mem_cons_self
                simpa [Ne.symm hc] using hl
            | tail _ hl' => exact hls l' (List.mem_cons_of_mem l hl')

theorem readlines_rest {rest : Text} (h : '\n' ∉ rest) : readlines rest = lastLine rest := by
  rw [lastLine]
  split
  next hnil => rw [hnil, readlines]
  next hne => exact (readlines_line hne h []).1

theorem readlines_unlines {ls : List Text} {rest : Text} (hls : ∀ l ∈ ls, '\n' ∉ l)
    (hrest : '\n' ∉ rest) :
    readlines (unlines ls rest) = (ls.map fun l => l ++ ['\n']) ++ lastLine rest := by
  induction ls with
  | nil => exact readlines_rest hrest
  | cons l ls ih =>
      have hl := hls l List.mem_cons_self
      rw [unlines_cons, List.map_cons, List.cons_append,
        ← ih fun l' hl' => hls l' (List.mem_cons_of_mem l hl')]
      by_cases hnil : l = []
      · rw [hnil]
        rfl
      · exact (readlines_line hnil hl _).2

theorem flatten_readlines (ls : List Text) (rest : Text) :
    ((ls.map fun l => l ++ ['\n']) ++ lastLine rest).flatten = unlines ls rest := by
  rw [List.flatten_append, unlines, lastLine, List.flatMap_def]
  congr 1
  split
  next h => rw [h]; rfl
  next => exact List.flatten_singleton

theorem chomp_newline (l : Text) : chomp (l ++ ['\n']) = l := by simp [chomp]

theorem chomp_of_not_mem {l : Text} (h : '\n' ∉ l) : chomp l = l :=
  if_neg fun hlast => h (List.mem_of_getLast? hlast)

theorem linesOf_unlines {ls : List Text} {rest : Text} (hls : ∀ l ∈ ls, '\n' ∉ l)
    (hrest : '\n' ∉ rest) : linesOf (unlines ls rest) = ls ++ lastLine rest := by
  rw [linesOf, readlines_unlines hls hrest, List.map_append, List.map_map]
  congr 1
  · rw [show chomp ∘ (fun l => l ++ ['\n']) = id from funext chomp_newline, List.map_id]
  · rw [lastLine]
    split
    · rfl
    · rw [List.map_singleton, chomp_of_not_mem hrest]

theorem endsLine_unlines {ls : List Text} {rest : Text} (hrest : '\n' ∉ rest) :
    EndsLine (unlines ls rest) ↔ rest = [] := by
  constructor
  · intro h
    by_contra hne
    obtain ⟨r, c, rfl⟩ := (List.eq_nil_or_concat rest).resolve_left hne
    rw [List.concat_eq_append] at h hrest
    cases h with
    | inl h => simp [unlines] at h
    | inr h =>
        obtain ⟨t, ht⟩ := h
        rw [unlines, ← List.append_assoc] at ht
        have hc := (List.append_inj' ht rfl).2
        rw [List.cons.inj hc |>.1] at hrest
        simp at hrest
  · intro h
    rw [h]
    cases ls using List.reverseRecOn with
    | nil => exact Or.inl rfl
    | append_singleton ls l =>
        refine Or.inr ⟨unlines ls [] ++ l, ?_⟩
        simp [unlines]

theorem linesOf_endsLine {a : Text} (h : EndsLine a) (t : Text) :
    linesOf (a ++ t) = linesOf a ++ linesOf t := by
  rw [linesOf, readlines_endsLine h, List.map_append, linesOf, linesOf]

theorem linesOf_line {l : Text} (h : '\n' ∉ l) (t : Text) :
    linesOf (l ++ '\n' :: t) = l :: linesOf t := by
  have hone : linesOf (unlines [l] []) = [l] := by
    rw [linesOf_unlines (by simpa using h) (by simp)]
    rfl
  have hends : EndsLine (unlines [l] []) := (endsLine_unlines (by simp)).mpr rfl
  have hfirst := linesOf_endsLine hends t
  rw [hone] at hfirst
  simpa [unlines] using hfirst

theorem not_mem_linesOf {t l : Text} (h : l ∈ linesOf t) : '\n' ∉ l := by
  obtain ⟨ls, rest, ht, hls, hrest⟩ := exists_unlines t
  rw [ht, linesOf_unlines hls hrest] at h
  cases List.mem_append.mp h with
  | inl h => exact hls l h
  | inr h =>
      rw [lastLine] at h
      split at h
      · cases h
      · rw [List.mem_singleton.mp h]
        exact hrest

theorem mem_readlines {t line : Text} (h : line ∈ readlines t) :
    '\n' ∉ chomp line ∧ (line = chomp line ++ ['\n'] ∨ line = chomp line ∧ line ≠ []) := by
  obtain ⟨ls, rest, ht, hls, hrest⟩ := exists_unlines t
  rw [ht, readlines_unlines hls hrest] at h
  cases List.mem_append.mp h with
  | inl h =>
      obtain ⟨l, hl, heq⟩ := List.mem_map.mp h
      rw [← heq, chomp_newline]
      exact ⟨hls l hl, Or.inl rfl⟩
  | inr h =>
      rw [lastLine] at h
      split at h
      · cases h
      next hne =>
        rw [List.mem_singleton.mp h, chomp_of_not_mem hrest]
        exact ⟨hrest, Or.inr ⟨rfl, hne⟩⟩

/-- What is written behind a last line without an end changes that line. -/
theorem not_prefix_glued {t : Text} (h : ¬ EndsLine t) {c : Char} (hc : c ≠ '\n') (x : Text) :
    ¬ linesOf t <+: linesOf (t ++ c :: x) := by
  obtain ⟨ls, rest, ht, hls, hrest⟩ := exists_unlines t
  rw [ht, endsLine_unlines hrest] at h
  obtain ⟨ls', rest', hx, hls', hrest'⟩ := exists_unlines (c :: x)
  have hfirst : ∃ l tail, linesOf (t ++ c :: x) = ls ++ (rest ++ c :: l) :: tail := by
    cases ls' with
    | nil =>
        rw [unlines, List.flatMap_nil, List.nil_append] at hx
        have hglued : '\n' ∉ rest ++ c :: x := by
          rw [hx, List.mem_append, not_or]
          exact ⟨hrest, hrest'⟩
        have htext : t ++ c :: x = unlines ls (rest ++ c :: x) := by
          rw [ht, unlines, unlines, List.append_assoc]
        refine ⟨x, [], ?_⟩
        rw [htext, linesOf_unlines hls hglued, lastLine, if_neg (by simp)]
    | cons l ls' =>
        rw [unlines_cons] at hx
        have hl : '\n' ∉ l := hls' l List.mem_cons_self
        cases l with
        | nil => exact absurd (List.cons.inj hx).1 hc
        | cons d l =>
            have hd : c = d := (List.cons.inj hx).1
            have hglued : ∀ m ∈ ls ++ [rest ++ d :: l], '\n' ∉ m := by
              intro m hm
              cases List.mem_append.mp hm with
              | inl hm => exact hls m hm
              | inr hm =>
                  rw [List.mem_singleton.mp hm, List.mem_append, not_or]
                  exact ⟨hrest, hl⟩
            have htext : t ++ c :: x =
                unlines (ls ++ [rest ++ d :: l]) [] ++ unlines ls' rest' := by
              rw [ht, hx]
              simp [unlines]
            refine ⟨l, linesOf (unlines ls' rest'), ?_⟩
            rw [htext, linesOf_endsLine ((endsLine_unlines (by simp)).mpr rfl),
              linesOf_unlines hglued (by simp), lastLine, if_pos rfl, hd]
            simp
  obtain ⟨l, tail, hlines⟩ := hfirst
  rw [hlines, ht, linesOf_unlines hls hrest, lastLine, if_neg h,
    List.prefix_append_right_inj]
  intro hprefix
  have hlen := congrArg List.length (List.cons_prefix_cons.mp hprefix).1
  simp at hlen

theorem linesOf_glued {ls : List Text} {rest entry : Text} (hls : ∀ l ∈ ls, '\n' ∉ l)
    (hrest : '\n' ∉ rest) (hentry : '\n' ∉ entry) :
    linesOf (unlines ls rest ++ (entry ++ ['\n'])) = ls ++ [rest ++ entry] := by
  have hglued : unlines ls rest ++ (entry ++ ['\n']) = unlines (ls ++ [rest ++ entry]) [] := by
    simp [unlines]
  have hls' : ∀ l ∈ ls ++ [rest ++ entry], '\n' ∉ l := by
    intro l hl
    cases List.mem_append.mp hl with
    | inl hl => exact hls l hl
    | inr hl =>
        rw [List.mem_singleton.mp hl, List.mem_append, not_or]
        exact ⟨hrest, hentry⟩
  rw [hglued, linesOf_unlines hls' (by simp), lastLine, if_pos rfl, List.append_nil]

/-- A line written at the end is a line of its own where the last one had an end. -/
theorem linesOf_append_iff (entry t : Text) :
    linesOf (t ++ (entry ++ ['\n'])) = linesOf t ++ [entry] ↔ EndsLine t ∧ '\n' ∉ entry := by
  constructor
  · intro h
    have hentry : '\n' ∉ entry :=
      not_mem_linesOf (t := t ++ (entry ++ ['\n'])) (by rw [h]; simp)
    refine ⟨?_, hentry⟩
    obtain ⟨ls, rest, ht, hls, hrest⟩ := exists_unlines t
    rw [ht, endsLine_unlines hrest]
    by_contra hne
    rw [ht, linesOf_glued hls hrest hentry, linesOf_unlines hls hrest] at h
    have hlen := congrArg List.length h
    simp [lastLine, hne] at hlen
  · intro h
    rw [linesOf_endsLine h.1, linesOf_line h.2]
    rfl

/-- The lines have all the bytes but the newlines. -/
theorem flatten_linesOf (t : Text) : (linesOf t).flatten = t.filter (· ≠ '\n') := by
  have hself : ∀ l : Text, '\n' ∉ l → l.filter (· ≠ '\n') = l := by
    intro l hl
    rw [List.filter_eq_self]
    intro c hc
    simpa using fun heq : c = '\n' => hl (heq ▸ hc)
  obtain ⟨ls, rest, ht, hls, hrest⟩ := exists_unlines t
  rw [ht, linesOf_unlines hls hrest]
  clear ht
  induction ls with
  | nil =>
      rw [unlines, List.flatMap_nil, List.nil_append, List.nil_append, hself rest hrest, lastLine]
      split
      next h => exact h.symm
      next => exact List.flatten_singleton
  | cons l ls ih =>
      rw [unlines_cons, List.cons_append, List.flatten_cons,
        ih fun l' hl' => hls l' (List.mem_cons_of_mem l hl'), List.filter_append,
        hself l (hls l List.mem_cons_self)]
      rfl

/-- What is written behind the last field belongs to it. -/
theorem splitOn_snoc (sep : Char) (l : Text) :
    ∃ fs last, l.splitOn sep = fs ++ [last] ∧
      ∀ x, sep ∉ x → (l ++ x).splitOn sep = fs ++ [last ++ x] := by
  induction l with
  | nil => exact ⟨[], [], List.splitOn_nil sep, fun x hx => List.splitOn_eq_singleton hx⟩
  | cons c l ih =>
      obtain ⟨fs, last, hsplit, happend⟩ := ih
      by_cases hc : c = sep
      · refine ⟨[] :: fs, last, ?_, fun x hx => ?_⟩
        · rw [hc, List.splitOn_cons_eq_if_modifyHead, if_pos (beq_self_eq_true sep), hsplit]
          rfl
        · rw [hc, List.cons_append, List.splitOn_cons_eq_if_modifyHead,
            if_pos (beq_self_eq_true sep), happend x hx]
          rfl
      · have hbeq : ¬ (c == sep) = true := by simpa using hc
        cases fs with
        | nil =>
            refine ⟨[], c :: last, ?_, fun x hx => ?_⟩
            · rw [List.splitOn_cons_eq_if_modifyHead, if_neg hbeq, hsplit]
              rfl
            · rw [List.cons_append, List.splitOn_cons_eq_if_modifyHead, if_neg hbeq,
                happend x hx]
              rfl
        | cons f fs =>
            refine ⟨(c :: f) :: fs, last, ?_, fun x hx => ?_⟩
            · rw [List.splitOn_cons_eq_if_modifyHead, if_neg hbeq, hsplit]
              rfl
            · rw [List.cons_append, List.splitOn_cons_eq_if_modifyHead, if_neg hbeq,
                happend x hx]
              rfl

theorem join_splitOn (sep : Char) (l : Text) : join sep (l.splitOn sep) = l :=
  List.intercalate_splitOn sep

theorem splitOn_join {sep : Char} {fs : List Text} (hne : fs ≠ [])
    (h : ∀ f ∈ fs, sep ∉ f) : (join sep fs).splitOn sep = fs :=
  List.splitOn_intercalate sep h hne

theorem mem_join {sep c : Char} {fs : List Text} (h : c ∈ join sep fs) :
    c = sep ∨ ∃ f ∈ fs, c ∈ f := by
  induction fs with
  | nil => cases h
  | cons f fs ih =>
      cases fs with
      | nil =>
          rw [join, List.intercalate_singleton] at h
          exact Or.inr ⟨f, List.mem_cons_self, h⟩
      | cons f' fs =>
          rw [join, List.intercalate_cons_cons, List.mem_append, List.mem_append,
            List.mem_singleton] at h
          rcases h with (hf | hsep) | hrest
          · exact Or.inr ⟨f, List.mem_cons_self, hf⟩
          · exact Or.inl hsep
          · rcases ih hrest with hsep | ⟨g, hg, hcg⟩
            · exact Or.inl hsep
            · exact Or.inr ⟨g, List.mem_cons_of_mem _ hg, hcg⟩

theorem join_snoc {sep : Char} {fs : List Text} (hne : fs ≠ []) (f : Text) :
    join sep (fs ++ [f]) = join sep fs ++ sep :: f := by
  induction fs with
  | nil => exact absurd rfl hne
  | cons g fs ih =>
      cases fs with
      | nil => simp [join, List.intercalate_cons_cons]
      | cons g' fs =>
          have htail := ih (List.cons_ne_nil g' fs)
          simp only [join, List.cons_append, List.intercalate_cons_cons] at htail ⊢
          rw [htail]
          simp

theorem endsLine_append {a b : Text} (ha : EndsLine a) (hb : EndsLine b) :
    EndsLine (a ++ b) := by
  cases hb with
  | inl hb => rwa [hb, List.append_nil]
  | inr hb =>
      obtain ⟨t, ht⟩ := hb
      exact Or.inr ⟨a ++ t, by rw [ht, List.append_assoc]⟩

theorem endsLine_suffix {a b : Text} (h : EndsLine (a ++ b)) : EndsLine b := by
  cases List.eq_nil_or_concat b with
  | inl hnil => exact Or.inl hnil
  | inr hconcat =>
      obtain ⟨r, c, rfl⟩ := hconcat
      rw [List.concat_eq_append, ← List.append_assoc] at h
      cases h with
      | inl h => simp at h
      | inr h =>
          obtain ⟨t, ht⟩ := h
          have hc := (List.append_inj' ht rfl).2
          exact Or.inr ⟨r, by rw [List.concat_eq_append, hc]⟩

/-- The lines before one that is read all have an end; that line has one, or it is the last. -/
theorem readlines_parts {t line : Text} {pre post : List Text}
    (h : readlines t = pre ++ line :: post) :
    t = pre.flatten ++ (line ++ post.flatten) ∧ readlines pre.flatten = pre ∧
      EndsLine pre.flatten ∧
      ((∃ l, '\n' ∉ l ∧ line = l ++ ['\n']) ∨ '\n' ∉ line ∧ line ≠ [] ∧ post = []) := by
  obtain ⟨ls, rest, ht, hls, hrest⟩ := exists_unlines t
  rw [ht, readlines_unlines hls hrest] at h
  rw [ht]
  clear ht
  induction ls generalizing pre with
  | nil =>
      rw [List.map_nil, List.nil_append, lastLine] at h
      split at h
      · simp at h
      next hne =>
        cases pre with
        | nil =>
            cases h
            exact ⟨by simp [unlines], rfl, Or.inl rfl, Or.inr ⟨hrest, hne, rfl⟩⟩
        | cons p pre => simp at h
  | cons l ls ih =>
      have hl := hls l List.mem_cons_self
      rw [List.map_cons, List.cons_append] at h
      cases pre with
      | nil =>
          obtain ⟨hline, hpost⟩ := List.cons.inj h
          have hflat : post.flatten = unlines ls rest := by
            rw [← hpost, flatten_readlines]
          refine ⟨?_, rfl, Or.inl rfl, Or.inl ⟨l, hl, hline.symm⟩⟩
          rw [hflat, unlines_cons, ← hline]
          simp
      | cons p pre =>
          obtain ⟨hp, hlines⟩ := List.cons.inj h
          obtain ⟨htext, hpre, hends, hline⟩ :=
            @ih pre hlines fun l' hl' => hls l' (List.mem_cons_of_mem l hl')
          refine ⟨?_, ?_, ?_, hline⟩
          · rw [unlines_cons, htext, List.flatten_cons, ← hp]
            simp
          · have hread := readlines_endsLine (a := l ++ ['\n']) (Or.inr ⟨l, rfl⟩) pre.flatten
            have hone : readlines (l ++ ['\n']) = [l ++ ['\n']] := by
              by_cases hnil : l = []
              · rw [hnil]
                rfl
              · exact (readlines_line hnil hl []).2
            rw [List.flatten_cons, ← hp, hread, hone, hpre]
            rfl
          · rw [List.flatten_cons, ← hp]
            exact endsLine_append (Or.inr ⟨l, rfl⟩) hends

end Jailkit.JkLib
