import Jailkit.Lib.Text

/-!
The string functions of jk_lib.c.
-/
namespace Jailkit

def endingSlash (src : Text) : Text :=
  if src.getLast? = some '/' then src else src ++ ['/']

/-- `dirs_equal`: one slash at the end of one of the two makes no difference. -/
def dirsEqual (dir1 dir2 : Text) : Bool :=
  if dir1.length = dir2.length then
    dir1 == dir2
  else if dir1.length + 1 = dir2.length ∧ dir1.getLast? ≠ some '/' ∧
      dir2.getLast? = some '/' then
    dir1 == dir2.take dir1.length
  else if dir1.length = dir2.length + 1 ∧ dir1.getLast? = some '/' ∧
      dir2.getLast? ≠ some '/' then
    dir1.take dir2.length == dir2
  else
    false

/-- The loop of `getjaildir`, from the end down to index 5. -/
def getjaildirLoop (oldhomedir : Text) : Nat → Option (Text × Text)
  | 0 => none
  | i + 1 =>
      if i + 1 > 4 then
        if oldhomedir[i + 1]? = some '/' ∧ oldhomedir[i]? = some '.' ∧
            oldhomedir[i - 1]? = some '/' then
          some (oldhomedir.take (i - 1), oldhomedir.drop (i + 1))
        else
          getjaildirLoop oldhomedir i
      else
        none

/-- The jail directory and the home directory within it. -/
def getjaildir (oldhomedir : Text) : Option (Text × Text) :=
  getjaildirLoop oldhomedir oldhomedir.length

def keepOne : Text → Text
  | c :: d :: t => if isspace c then keepOne (d :: t) else c :: d :: t
  | t => t

/-- `strip_string`: blanks go from both ends, but one byte always stays. -/
def stripString (t : Text) : Text := (keepOne (keepOne t).reverse).reverse

def explodeString (string : Text) (delimiter : Char) : List Text :=
  ((string.splitOn delimiter).map stripString).filter fun s => !s.isEmpty

theorem keepOne_drops (t : Text) :
    ∃ b, t = b ++ keepOne t ∧ ∀ c ∈ b, isspace c = true := by
  fun_induction keepOne t with
  | case1 c d t hc ih =>
      obtain ⟨b, ht, hb⟩ := ih
      refine ⟨c :: b, by rw [List.cons_append, ← ht], fun e he => ?_⟩
      cases he with
      | head => exact hc
      | tail _ he => exact hb e he
  | case2 => exact ⟨[], rfl, by simp⟩
  | case3 => exact ⟨[], rfl, by simp⟩

theorem trim_keepOne (t : Text) : trim (keepOne t) = trim t := by
  obtain ⟨b, ht, hb⟩ := keepOne_drops t
  have htrim := trim_blanks_append hb (keepOne t)
  rwa [← ht, eq_comm] at htrim

theorem trim_stripString (t : Text) : trim (stripString t) = trim t := by
  obtain ⟨b, ht, hb⟩ := keepOne_drops (keepOne t).reverse
  have hrev : keepOne t = stripString t ++ b.reverse := by
    rw [stripString, ← List.reverse_append, ← ht, List.reverse_reverse]
  rw [← trim_keepOne t, hrev]
  exact (trim_append_blanks (fun c hc => hb c (List.mem_reverse.mp hc)) _).symm

theorem mem_explodeString {string item : Text} {delimiter : Char}
    (h : item ∈ explodeString string delimiter) :
    ∃ piece ∈ string.splitOn delimiter, stripString piece = item := by
  rw [explodeString, List.mem_filter] at h
  exact List.mem_map.mp h.1

end Jailkit
