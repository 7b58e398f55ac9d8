import Jailkit.JkLib.PyFile

/-!
passwdparser.c: the search for a line, block by block, against the search along the lines.
A line that does not fit into a block ends the search, with its beginning for a last line.
-/
namespace Jailkit.PasswdParser

open JkLib

def BLOCKSIZE : Nat := 1024

/-- The loop of `field_from_line`; `piece` is what stands from `fstart` to `pos`. -/
def fieldLoop (field : Int) : Int → Text → Text → Option Text
  | fcount, piece, [] => if fcount = field then some piece else none
  | fcount, piece, c :: line =>
      if c = ':' then
        if field = fcount then some piece else fieldLoop field (fcount + 1) [] line
      else fieldLoop field fcount (piece ++ [c]) line

def fieldFromLine (line : Text) (field : Int) : Option Text := fieldLoop field 0 [] line

/-- The local variables of `find_line`: the bytes of `buf` in front of the NUL behind them,
the index of `prev`, and what the file has not yet given. -/
structure Block where
  buf : Text
  prev : Nat
  num : Nat
  restlen : Nat
  unread : Text
  deriving DecidableEq, Repr

def Block.first (file : Text) : Block where
  buf := file.take BLOCKSIZE
  prev := 0
  num := (file.take BLOCKSIZE).length
  restlen := (file.take BLOCKSIZE).length
  unread := file.drop BLOCKSIZE

/-- The rest of the block moved to its beginning, and filled up from the file. -/
def Block.refill (b : Block) : Block :=
  let restlen := b.restlen - b.prev
  let got := b.unread.take (BLOCKSIZE - restlen)
  { buf := (b.buf.drop b.prev).take restlen ++ got
    prev := 0
    num := got.length
    restlen := restlen + got.length
    unread := b.unread.drop (BLOCKSIZE - restlen) }

/-- The loop of `find_line`; `none` where it has not ended within the fuel. -/
def findLineLoop (fcont : Text) (fnum : Int) : Nat → Block → Option (Option Text)
  | 0, _ => none
  | fuel + 1, b =>
      if b.num = 0 ∧ b.restlen = 0 then some none
      else
        let prev := cText (b.buf.drop b.prev)
        if '\n' ∈ prev then
          let line := prev.takeWhile (· ≠ '\n')
          if fieldFromLine line fnum = some fcont then some (some line)
          else findLineLoop fcont fnum fuel { b with prev := b.prev + line.length + 1 }
        else if b.num = 0 then
          if fieldFromLine prev fnum = some fcont then some (some prev)
          else findLineLoop fcont fnum fuel { b with restlen := 0 }
        else findLineLoop fcont fnum fuel b.refill

/-- `find_line`; `none` for the file is one that cannot be opened. -/
def findLine (file : Option Text) (fcont : Text) (fnum : Int) (fuel : Nat) :
    Option (Option Text) :=
  match file with
  | none => some none
  | some file => findLineLoop fcont fnum fuel (Block.first file)

/-- The line has the field, and it is the wanted one. -/
def matching (fcont : Text) (fnum : Int) (line : Text) : Bool :=
  decide (fieldFromLine line fnum = some fcont)

/-- The field of a line that is split at the colons. -/
def fieldOf (line : Text) (field : Int) : Option Text :=
  if field < 0 then none else (line.splitOn ':')[field.toNat]?

/-- A line that is read as it stands. -/
def Fits (line : Text) : Prop := line.length < BLOCKSIZE ∧ nul ∉ line

instance (line : Text) : Decidable (Fits line) := inferInstanceAs (Decidable (_ ∧ _))

/-- What is taken for the line where it does not fit. -/
def cut (line : Text) : Text := cText (line.take BLOCKSIZE)

/-- The search along the lines that comes to its end at the first one that does not fit. -/
def searchLines (wanted : Text → Bool) : List Text → Option Text
  | [] => none
  | line :: lines =>
      if Fits line then if wanted line then some line else searchLines wanted lines
      else if wanted (cut line) then some (cut line) else none

/-- Every line up to the first that is wanted fits, or it makes no difference that one does
not: its beginning is wanted and is the line itself or the first wanted one behind it, or is
not wanted and nothing from there on is. -/
def CutHarmless (wanted : Text → Bool) : List Text → Prop
  | [] => True
  | line :: lines =>
      if Fits line then wanted line = true ∨ CutHarmless wanted lines
      else if wanted (cut line) then
        line = cut line ∨ wanted line = false ∧ lines.find? wanted = some (cut line)
      else ∀ l ∈ line :: lines, wanted l = false

/-- With enough fuel the search ends with the first line that has the wanted field. -/
def FindsFirst (file fcont : Text) (fnum : Int) : Prop :=
  ∃ n, ∀ fuel, n ≤ fuel → findLine (some file) fcont fnum fuel =
    some ((linesOf file).find? fun line => decide (fieldOf line fnum = some fcont))

section

variable {fcont line piece R : Text} {fnum field fcount : Int} {b : Block} {fuel : Nat}
  {wanted : Text → Bool} {lines : List Text}

theorem fieldLoop_eq (hpiece : ':' ∉ piece) :
    fieldLoop field fcount piece line =
      if field < fcount then none else ((piece ++ line).splitOn ':')[(field - fcount).toNat]? := by
  induction line generalizing fcount piece with
  | nil =>
      rw [fieldLoop, List.append_nil, List.splitOn_eq_singleton hpiece]
      split
      next heq => simp [heq]
      next hne =>
        split
        · rfl
        next hge =>
          symm
          apply List.getElem?_eq_none
          rw [List.length_singleton]
          omega
  | cons c line ih =>
      rw [fieldLoop]
      by_cases hc : c = ':'
      · rw [if_pos hc, hc, List.splitOn_append_cons_self_of_not_mem hpiece]
        by_cases heq : field = fcount
        · simp [heq]
        · rw [if_neg heq, ih List.not_mem_nil, List.nil_append]
          by_cases hlt : field < fcount
          · rw [if_pos hlt, if_pos (by omega)]
          · have hnext : (field - fcount).toNat = (field - (fcount + 1)).toNat + 1 := by omega
            rw [if_neg hlt, if_neg (by omega), hnext, List.getElem?_cons_succ]
      · have hpiece' : ':' ∉ piece ++ [c] := by simp [hpiece, Ne.symm hc]
        rw [if_neg hc, ih hpiece', List.append_assoc, List.singleton_append]

/-- Any field number is answered as if the line were split at the colons. -/
theorem fieldFromLine_eq : fieldFromLine line field = fieldOf line field := by
  rw [fieldFromLine, fieldLoop_eq List.not_mem_nil, fieldOf, Int.sub_zero, List.nil_append]

/-- The state in front of the rest `R` of the file. -/
structure Reading (b : Block) (R : Text) : Prop where
  rest : b.buf.drop b.prev ++ b.unread = R
  prev : b.prev ≤ b.buf.length
  restlen : b.restlen = b.buf.length
  size : b.buf.length ≤ BLOCKSIZE
  num : b.num ≠ 0
  full : b.buf.length = BLOCKSIZE ∨ b.unread = []

theorem cText_append (h : nul ∉ line) (t : Text) : cText (line ++ t) = line ++ cText t := by
  rw [cText, List.takeWhile_append_of_pos]
  · rfl
  · intro c hc
    exact decide_eq_true fun heq => h (heq ▸ hc)

theorem cText_append_of_mem (h : nul ∈ line) (t : Text) : cText (line ++ t) = cText line := by
  obtain ⟨a, r, rfl, ha⟩ := List.eq_append_cons_of_mem h
  rw [List.append_assoc, List.cons_append, cText_append ha, cText_append ha]
  simp [cText]

/-- A newline that is found: the line in front of it has neither a newline nor a NUL. -/
theorem exists_line {t : Text} (h : '\n' ∈ cText t) :
    ∃ line rest, t = line ++ '\n' :: rest ∧ '\n' ∉ line ∧ nul ∉ line ∧
      (cText t).takeWhile (· ≠ '\n') = line := by
  obtain ⟨line, rest, hsplit, hline⟩ := List.eq_append_cons_of_mem h
  have hnul : nul ∉ line := by
    intro hmem
    have hin : nul ∈ cText t := by
      rw [hsplit]
      exact List.mem_append_left _ hmem
    simpa using List.mem_takeWhile_imp hin
  refine ⟨line, rest ++ t.dropWhile (· ≠ nul), ?_, hline, hnul, ?_⟩
  · rw [← List.cons_append, ← List.append_assoc, ← hsplit, cText, List.takeWhile_append_dropWhile]
  · have hall : ∀ c ∈ line, decide (c ≠ '\n') = true := by
      intro c hc
      exact decide_eq_true fun heq => hline (heq ▸ hc)
    rw [hsplit, List.takeWhile_append_of_pos hall]
    simp

/-- Where no newline is found in the next block, its text is searched as the last line. -/
theorem searchLines_last (hR : R ≠ []) (h : '\n' ∉ cText (R.take BLOCKSIZE)) :
    searchLines wanted (linesOf R) =
      if wanted (cText (R.take BLOCKSIZE)) then some (cText (R.take BLOCKSIZE)) else none := by
  by_cases hmem : '\n' ∈ R
  · obtain ⟨line, rest, rfl, hline⟩ := List.eq_append_cons_of_mem hmem
    have hcut : ¬ Fits line ∧ cut line = cText ((line ++ '\n' :: rest).take BLOCKSIZE) := by
      by_cases hlen : line.length < BLOCKSIZE
      · have htake : (line ++ '\n' :: rest).take BLOCKSIZE =
            line ++ '\n' :: rest.take (BLOCKSIZE - line.length - 1) := by
          rw [List.take_append, List.take_of_length_le hlen.le,
            List.take_cons (Nat.sub_pos_of_lt hlen)]
        have hnul : nul ∈ line := by
          by_contra hnul
          rw [htake, cText_append hnul] at h
          simp [cText, show '\n' ≠ nul by decide] at h
        rw [htake, cText_append_of_mem hnul, cut, List.take_of_length_le hlen.le]
        exact ⟨fun hfits => hfits.2 hnul, rfl⟩
      · rw [cut, List.take_append_of_le_length (Nat.le_of_not_lt hlen)]
        exact ⟨fun hfits => hlen hfits.1, rfl⟩
    rw [linesOf_line hline, searchLines, if_neg hcut.1, hcut.2]
  · have hlines : linesOf R = [R] := by
      rw [linesOf, readlines_rest hmem, lastLine, if_neg hR, List.map_singleton,
        chomp_of_not_mem hmem]
    rw [hlines, searchLines]
    by_cases hfits : Fits R
    · rw [if_pos hfits, List.take_of_length_le hfits.1.le, cText_eq_self hfits.2, searchLines]
    · rw [if_neg hfits, cut]

/-- The block at the end of the file, or full with the beginning of a line. -/
theorem findLineLoop_last (hnum : b.num = 0) (hprev : b.prev = 0)
    (hbuf : b.buf = R.take BLOCKSIZE) (hrestlen : b.restlen = b.buf.length)
    (hline : '\n' ∉ cText (R.take BLOCKSIZE)) (hfuel : 2 ≤ fuel) :
    findLineLoop fcont fnum fuel b = some (searchLines (matching fcont fnum) (linesOf R)) := by
  obtain ⟨fuel, rfl⟩ : ∃ n, fuel = n + 2 := ⟨fuel - 2, by omega⟩
  rw [findLineLoop]
  by_cases hR : R = []
  · have hempty : b.restlen = 0 := by rw [hrestlen, hbuf, hR]; rfl
    have hend : b.num = 0 ∧ b.restlen = 0 := ⟨hnum, hempty⟩
    rw [if_pos hend, hR]
    rfl
  · have hlen : b.restlen ≠ 0 := by
      have hpos := List.length_pos_of_ne_nil hR
      rw [hrestlen, hbuf, List.length_take, BLOCKSIZE]
      omega
    rw [searchLines_last hR hline, if_neg fun h => hlen h.2, hprev, List.drop_zero, hbuf]
    simp only [hline, if_false, hnum, if_true, matching, decide_eq_true_eq]
    split
    · rfl
    · exact if_pos ⟨rfl, rfl⟩

theorem length_rest (h : Reading b R) :
    (b.buf.drop b.prev).length = b.restlen - b.prev ∧ b.restlen - b.prev ≤ BLOCKSIZE := by
  rw [List.length_drop, h.restlen]
  exact ⟨rfl, (Nat.sub_le _ _).trans h.size⟩

/-- The block is filled with what comes next in the file. -/
theorem refill_eq (h : Reading b R) :
    b.refill.buf = R.take BLOCKSIZE ∧ b.refill.unread = R.drop BLOCKSIZE ∧
      b.refill.restlen = b.refill.buf.length := by
  obtain ⟨hlen, hle⟩ := length_rest h
  have hmoved : (b.buf.drop b.prev).take (b.restlen - b.prev) = b.buf.drop b.prev :=
    List.take_of_length_le hlen.le
  rw [← hlen] at hle
  simp only [Block.refill, hmoved, ← h.rest, List.take_append, List.drop_append, hlen,
    List.take_of_length_le hle, List.drop_eq_nil_of_le hle, List.nil_append, List.length_append,
    and_self]

theorem reading_refill (h : Reading b R) (hnum : b.refill.num ≠ 0) : Reading b.refill R where
  rest := by
    rw [(refill_eq h).1, (refill_eq h).2.1]
    exact List.take_append_drop BLOCKSIZE R
  prev := Nat.zero_le _
  restlen := (refill_eq h).2.2
  size := by
    rw [(refill_eq h).1]
    exact List.length_take_le _ _
  num := hnum
  full := by
    rw [(refill_eq h).1, (refill_eq h).2.1, List.length_take, List.drop_eq_nil_iff]
    omega

/-- The block after a line that is not the wanted one. -/
theorem reading_next {rest : Text} (h : Reading b R)
    (hline : b.buf.drop b.prev = line ++ '\n' :: rest) :
    Reading { b with prev := b.prev + line.length + 1 } (rest ++ b.unread) where
  rest := by
    simp only [Nat.add_assoc, ← List.drop_drop, hline, List.drop_left, List.drop_one,
      List.tail_cons]
  prev := by
    have hlen := congrArg List.length hline
    rw [List.length_drop, List.length_append, List.length_cons] at hlen
    have hprev := h.prev
    simp only
    omega
  restlen := h.restlen
  size := h.size
  num := h.num
  full := h.full

/-- Each round goes past a line or takes something from the file; where there is nothing to
take, the rest of the block is the last line. -/
theorem findLineLoop_reads (h : Reading b R) (hfuel : R.length + b.unread.length + 3 ≤ fuel) :
    findLineLoop fcont fnum fuel b = some (searchLines (matching fcont fnum) (linesOf R)) := by
  induction fuel generalizing b R with
  | zero => omega
  | succ fuel ih =>
      by_cases hmem : '\n' ∈ cText (b.buf.drop b.prev)
      · obtain ⟨line, rest, hsplit, hline, hnul, htake⟩ := exists_line hmem
        have hR : R = line ++ '\n' :: (rest ++ b.unread) := by
          rw [← h.rest, hsplit, List.append_assoc, List.cons_append]
        have hfits : Fits line := by
          have hlen := congrArg List.length hsplit
          rw [List.length_append, List.length_cons] at hlen
          have hle := length_rest h
          exact ⟨by omega, hnul⟩
        have hfuel' : (rest ++ b.unread).length + b.unread.length + 3 ≤ fuel := by
          have hlen := congrArg List.length hR
          rw [List.length_append, List.length_cons] at hlen
          omega
        rw [findLineLoop, if_neg fun hend => h.num hend.1, hR, linesOf_line hline, searchLines,
          if_pos hfits]
        simp only [hmem, if_true, htake, matching, decide_eq_true_eq]
        split
        · rfl
        · exact ih (reading_next h hsplit) hfuel'
      · rw [findLineLoop, if_neg fun hend => h.num hend.1]
        simp only [hmem, if_false, h.num]
        by_cases hnum : b.refill.num = 0
        · have hsame : b.refill.buf = b.buf.drop b.prev := by
            have hgot : b.unread.take (BLOCKSIZE - (b.restlen - b.prev)) = [] :=
              List.length_eq_zero_iff.mp hnum
            rw [Block.refill, hgot, List.append_nil, List.take_of_length_le (length_rest h).1.le]
          refine findLineLoop_last hnum rfl (refill_eq h).1 (refill_eq h).2.2 ?_ (by omega)
          rwa [← (refill_eq h).1, hsame]
        · have hless : b.refill.unread.length < b.unread.length := by
            have hpos := Nat.pos_of_ne_zero hnum
            simp only [Block.refill, List.length_take] at hpos
            simp only [Block.refill, List.length_drop]
            omega
          exact ih (reading_refill h hnum) (by omega)

theorem findLine_eq {file : Text} (hfuel : 2 * file.length + 3 ≤ fuel) :
    findLine (some file) fcont fnum fuel =
      some (searchLines (matching fcont fnum) (linesOf file)) := by
  by_cases hfile : file = []
  · obtain ⟨fuel, rfl⟩ : ∃ n, fuel = n + 1 := ⟨fuel - 1, by omega⟩
    subst hfile
    rfl
  · have hreading : Reading (Block.first file) file := {
      rest := List.take_append_drop BLOCKSIZE file
      prev := Nat.zero_le _
      restlen := rfl
      size := List.length_take_le _ _
      num := by
        have hpos := List.length_pos_of_ne_nil hfile
        simp only [Block.first, List.length_take, BLOCKSIZE]
        omega
      full := by
        simp only [Block.first, List.length_take, List.drop_eq_nil_iff]
        omega }
    refine findLineLoop_reads hreading ?_
    simp only [Block.first, List.length_drop]
    omega

theorem searchLines_eq_iff :
    searchLines wanted lines = lines.find? wanted ↔ CutHarmless wanted lines := by
  induction lines with
  | nil => exact iff_of_true rfl trivial
  | cons line lines ih =>
      rw [searchLines, CutHarmless]
      by_cases hfits : Fits line
      · rw [if_pos hfits, if_pos hfits]
        cases hwanted : wanted line with
        | true => simp [hwanted]
        | false => simpa [hwanted] using ih
      · rw [if_neg hfits, if_neg hfits]
        cases hcut : wanted (cut line) with
        | true =>
            cases hwanted : wanted line with
            | true => simp [hwanted, eq_comm]
            | false =>
                have hne : line ≠ cut line := by
                  intro heq
                  rw [heq, hcut] at hwanted
                  cases hwanted
                simp [hwanted, hne, eq_comm]
        | false =>
            rw [if_neg Bool.false_ne_true, if_neg Bool.false_ne_true, eq_comm, List.find?_eq_none]
            simp only [Bool.not_eq_true]

theorem cutHarmless_of_fits (h : ∀ line ∈ lines, Fits line) : CutHarmless wanted lines := by
  induction lines with
  | nil => trivial
  | cons line lines ih =>
      rw [List.forall_mem_cons] at h
      rw [CutHarmless, if_pos h.1]
      exact Or.inr (ih h.2)

theorem matching_eq : matching fcont fnum = fun line => decide (fieldOf line fnum = some fcont) := by
  funext line
  rw [matching, fieldFromLine_eq]

theorem findsFirst_iff {file : Text} :
    FindsFirst file fcont fnum ↔
      searchLines (matching fcont fnum) (linesOf file) =
        (linesOf file).find? (matching fcont fnum) := by
  rw [FindsFirst, ← matching_eq]
  constructor
  · intro ⟨n, h⟩
    have hfind := h (max n (2 * file.length + 3)) (Nat.le_max_left _ _)
    rw [findLine_eq (Nat.le_max_right _ _)] at hfind
    exact Option.some.inj hfind
  · intro h
    refine ⟨2 * file.length + 3, fun fuel hfuel => ?_⟩
    rw [findLine_eq hfuel, h]

end

/-- The search by blocks is the search along the lines but for a line that is longer than a
block and stands in front of what is wanted. -/
theorem findLine_first_iff (file fcont : Text) (fnum : Int) :
    FindsFirst file fcont fnum ↔
      CutHarmless (fun line => decide (fieldOf line fnum = some fcont)) (linesOf file) := by
  rw [findsFirst_iff, searchLines_eq_iff, matching_eq]

def longLineFirst : Text := List.replicate 1030 'a' ++ '\n' :: "u:x:5".toList

theorem findLine_misses_line_behind :
    nul ∉ longLineFirst ∧ ¬ FindsFirst longLineFirst "5".toList 2 := by
  have hnul : ∀ n, nul ∉ List.replicate n 'a' := by
    intro n h
    exact absurd (List.eq_of_mem_replicate h) (by decide)
  have hnewline : '\n' ∉ List.replicate 1030 'a' := by
    intro h
    exact absurd (List.eq_of_mem_replicate h) (by decide)
  have hmatching : ∀ n, matching "5".toList 2 (List.replicate n 'a') = false := by
    intro n
    have hcolon : ':' ∉ List.replicate n 'a' := by
      intro h
      exact absurd (List.eq_of_mem_replicate h) (by decide)
    rw [matching, fieldFromLine_eq, fieldOf, List.splitOn_eq_singleton hcolon]
    rfl
  have hlines : linesOf longLineFirst = [List.replicate 1030 'a', "u:x:5".toList] := by
    rw [longLineFirst, linesOf_line hnewline]
    rfl
  have hlong : ¬ Fits (List.replicate 1030 'a') := by
    rw [Fits, List.length_replicate]
    decide
  have hcut : cut (List.replicate 1030 'a') = List.replicate 1024 'a' := by
    rw [cut, List.take_replicate]
    exact cText_eq_self (hnul _)
  constructor
  · rw [longLineFirst, List.mem_append, not_or]
    exact ⟨hnul _, by decide⟩
  · rw [findsFirst_iff, hlines, searchLines, if_neg hlong, hcut, hmatching,
      List.find?_cons_of_neg (by rw [hmatching]; decide)]
    decide

end Jailkit.PasswdParser
