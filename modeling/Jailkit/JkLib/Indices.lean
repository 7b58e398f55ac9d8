import Jailkit.JkLib.Strings

/-!
Which bytes of their arguments `strip_string`, `ending_slash` and `dirs_equal` look at and
store, by the numbers that stand in brackets. A length is put into an `int`; what is reckoned
with it is no index where it is negative, or more than an `int` can hold.
-/
namespace Jailkit

def toInt (n : Int) : Int := (n + 2 ^ 31) % 2 ^ 32 - 2 ^ 31

def natOf (i : Int) : Option Nat := if 0 ≤ i ∧ i < 2 ^ 31 then some i.toNat else none

/-- The byte at an index of the string, or the NUL behind it. -/
def byteAt (string : Text) (i : Int) : Char := string.getD i.toNat nul

/-- The indices that the loop over the blanks in front reads, and where it stops. The number
says how far `numstartspaces` is below `endofcontent`. -/
def frontLoop (string : Text) : Nat → Int → List Int × Int
  | 0, numstartspaces => ([numstartspaces], numstartspaces)
  | below + 1, numstartspaces =>
      if isspace (byteAt string numstartspaces) then
        let rest := frontLoop string below (numstartspaces + 1)
        (numstartspaces :: rest.1, rest.2)
      else
        ([numstartspaces], numstartspaces)

/-- The same of the loop from the end; the number says how far it is to `numstartspaces`. -/
def backLoop (string : Text) : Nat → Int → List Int × Int
  | 0, endofcontent => ([endofcontent], endofcontent)
  | above + 1, endofcontent =>
      if isspace (byteAt string endofcontent) then
        let rest := backLoop string above (endofcontent - 1)
        (endofcontent :: rest.1, rest.2)
      else
        ([endofcontent], endofcontent)

def stripFront (string : Text) : List Int × Int :=
  frontLoop string (toInt (string.length - 1)).toNat 0

def stripBack (string : Text) : List Int × Int :=
  let endofcontent := toInt (string.length - 1)
  backLoop string (endofcontent - (stripFront string).2).toNat endofcontent

/-- `strip_string`: both loops, `memmove` and the NUL. -/
def stripIndices (string : Text) : List (Option Nat) :=
  let numstartspaces := (stripFront string).2
  let count := (stripBack string).2 - numstartspaces + 1
  let moved := if numstartspaces ≠ 0 then
    (List.range count.toNat).flatMap fun k : Nat => [numstartspaces + k, (k : Int)] else []
  ((stripFront string).1 ++ (stripBack string).1 ++ moved ++ [count]).map natOf

def endingSlashIndices (src : Text) : List (Option Nat) := [natOf (toInt src.length - 1)]

def endsInSlash (src : Text) : Prop := byteAt src (toInt src.length - 1) = '/'

instance (src : Text) : Decidable (endsInSlash src) := inferInstanceAs (Decidable (_ = _))

/-- The bytes of its result, with the NUL. -/
def endingSlashStores (src : Text) : Nat :=
  if endsInSlash src then src.length + 1 else src.length + 2

/-- The bytes that it has for them: `strdup` takes what it needs, `malloc0` what it is told. -/
def endingSlashOwns (src : Text) : Option Nat :=
  if endsInSlash src then some (src.length + 1) else natOf (toInt src.length + 2)

/-- Where `strncmp` looks at both strings. -/
def compared : Nat → Text → Text → List Nat
  | 0, _, _ => []
  | n + 1, c :: s, d :: t => 0 :: if c = d then (compared n s t).map (· + 1) else []
  | _ + 1, _, _ => [0]

def dirsEqualIndices (dir1 dir2 : Text) : List (Option Nat) × List (Option Nat) :=
  let d1len := toInt dir1.length
  let d2len := toInt dir2.length
  let last1 := natOf (d1len - 1)
  let last2 := natOf (d2len - 1)
  let strncmp := fun n : Nat => (compared n dir1 dir2).map some
  if d1len = d2len then
    (strncmp (dir1.length + 1), strncmp (dir1.length + 1))
  else if d1len = d2len - 1 then
    if byteAt dir1 (d1len - 1) ≠ '/' then
      if byteAt dir2 (d2len - 1) = '/' then
        (last1 :: strncmp d1len.toNat, last2 :: strncmp d1len.toNat)
      else
        ([last1], [last2])
    else
      ([last1], [])
  else if d1len - 1 = d2len then
    if byteAt dir1 (d1len - 1) = '/' then
      if byteAt dir2 (d2len - 1) ≠ '/' then
        (last1 :: strncmp d2len.toNat, last2 :: strncmp d2len.toNat)
      else
        ([last1], [last2])
    else
      ([last1], [])
  else
    ([], [])

def Inside (string : Text) (indices : List (Option Nat)) : Prop :=
  ∀ index ∈ indices, ∃ i, index = some i ∧ i ≤ string.length

structure EndingSlashInside (src : Text) : Prop where
  reads : Inside src (endingSlashIndices src)
  fits : ∃ size, endingSlashOwns src = some size ∧ endingSlashStores src ≤ size

def DirsEqualInside (dir1 dir2 : Text) : Prop :=
  Inside dir1 (dirsEqualIndices dir1 dir2).1 ∧ Inside dir2 (dirsEqualIndices dir1 dir2).2

/-- There is a last byte, at an index that an `int` can hold, and so is the one behind it unless
a blank is taken away. -/
def StripLength (string : Text) : Prop :=
  1 ≤ string.length % 2 ^ 32 ∧ string.length % 2 ^ 32 ≤ 2 ^ 31 ∧
    (string.length % 2 ^ 32 = 2 ^ 31 →
      isspace (byteAt string 0) = true ∨ isspace (byteAt string (2 ^ 31 - 1)) = true)

/-- There is a last byte, and it is a slash or there is room for one. -/
def SlashLength (src : Text) : Prop :=
  1 ≤ src.length % 2 ^ 32 ∧ src.length % 2 ^ 32 < 2 ^ 31 ∧
    (endsInSlash src ∨ src.length + 2 < 2 ^ 31)

/-- It is not that the one is empty and the other a byte longer; the second may be empty behind
a first that is no slash. -/
def DirsLength (dir1 dir2 : Text) : Prop :=
  (toInt dir1.length + 1 = toInt dir2.length → 1 ≤ toInt dir1.length) ∧
    (toInt dir1.length = toInt dir2.length + 1 →
      1 ≤ toInt dir2.length ∨ toInt dir2.length = 0 ∧ byteAt dir1 0 ≠ '/')

section

variable {string dir1 dir2 : Text} {n below above : Nat} {i numstartspaces endofcontent : Int}

theorem natOf_eq_some {k : Nat} : natOf i = some k ↔ i = k ∧ i < 2 ^ 31 := by
  rw [natOf]
  split
  next h =>
    rw [Option.some.injEq]
    omega
  next h =>
    refine iff_of_false nofun fun hi => h ?_
    omega

/-- An `int` expression as an index of the string. -/
theorem natOf_inside : (∃ k, natOf i = some k ∧ k ≤ string.length) ↔
    0 ≤ i ∧ i ≤ string.length ∧ i < 2 ^ 31 := by
  simp only [natOf_eq_some]
  constructor
  · intro h
    obtain ⟨k, hk, hle⟩ := h
    omega
  · intro h
    exact ⟨i.toNat, by omega, by omega⟩

theorem inside_nil : Inside string [] := nofun

theorem inside_cons {index : Option Nat} {indices : List (Option Nat)} :
    Inside string (index :: indices) ↔
      (∃ k, index = some k ∧ k ≤ string.length) ∧ Inside string indices :=
  List.forall_mem_cons

theorem inside_map_natOf {is : List Int} : Inside string (is.map natOf) ↔
    ∀ i ∈ is, 0 ≤ i ∧ i ≤ string.length ∧ i < 2 ^ 31 := by
  rw [Inside, List.forall_mem_map]
  exact forall₂_congr fun i _ => natOf_inside

/-- What the loop over the blanks in front reads lies between its start and its end. -/
theorem frontLoop_range :
    numstartspaces ≤ (frontLoop string below numstartspaces).2 ∧
      (frontLoop string below numstartspaces).2 ≤ numstartspaces + below ∧
      ∀ i ∈ (frontLoop string below numstartspaces).1,
        numstartspaces ≤ i ∧ i ≤ (frontLoop string below numstartspaces).2 := by
  induction below generalizing numstartspaces with
  | zero => simp [frontLoop]
  | succ below ih =>
      rw [frontLoop]
      split
      · have hrest := @ih (numstartspaces + 1)
        dsimp only
        refine ⟨by omega, by omega, fun i hi => ?_⟩
        cases List.mem_cons.mp hi with
        | inl heq =>
            rw [heq]
            exact ⟨Int.le_refl _, by omega⟩
        | inr hlater =>
            have hbetween := hrest.2.2 i hlater
            exact ⟨by omega, hbetween.2⟩
      · refine ⟨Int.le_refl _, by omega, fun i hi => ?_⟩
        rw [List.mem_singleton.mp hi]
        exact ⟨Int.le_refl _, Int.le_refl _⟩

theorem backLoop_range :
    (backLoop string above endofcontent).2 ≤ endofcontent ∧
      endofcontent ≤ (backLoop string above endofcontent).2 + above ∧
      endofcontent ∈ (backLoop string above endofcontent).1 ∧
      ∀ i ∈ (backLoop string above endofcontent).1,
        (backLoop string above endofcontent).2 ≤ i ∧ i ≤ endofcontent := by
  induction above generalizing endofcontent with
  | zero => simp [backLoop]
  | succ above ih =>
      rw [backLoop]
      split
      · have hrest := @ih (endofcontent - 1)
        dsimp only
        refine ⟨by omega, by omega, List.mem_cons_self, fun i hi => ?_⟩
        cases List.mem_cons.mp hi with
        | inl heq =>
            rw [heq]
            exact ⟨by omega, Int.le_refl _⟩
        | inr hlater =>
            have hbetween := hrest.2.2.2 i hlater
            exact ⟨hbetween.1, by omega⟩
      · refine ⟨Int.le_refl _, by omega, List.mem_singleton_self _, fun i hi => ?_⟩
        rw [List.mem_singleton.mp hi]
        exact ⟨Int.le_refl _, Int.le_refl _⟩

/-- The loop stays where it is exactly at a byte that is no blank, if it may move. -/
theorem frontLoop_stays (h : below ≠ 0) :
    (frontLoop string below numstartspaces).2 = numstartspaces ↔
      isspace (byteAt string numstartspaces) = false := by
  cases below with
  | zero => exact absurd rfl h
  | succ below =>
      rw [frontLoop]
      split
      next hspace =>
        have hrest := (@frontLoop_range string below (numstartspaces + 1)).1
        rw [hspace]
        exact iff_of_false (by dsimp only; omega) nofun
      next hspace => exact iff_of_true rfl (Bool.not_eq_true _ ▸ hspace)

theorem backLoop_stays (h : above ≠ 0) :
    (backLoop string above endofcontent).2 = endofcontent ↔
      isspace (byteAt string endofcontent) = false := by
  cases above with
  | zero => exact absurd rfl h
  | succ above =>
      rw [backLoop]
      split
      next hspace =>
        have hrest := (@backLoop_range string above (endofcontent - 1)).1
        rw [hspace]
        exact iff_of_false (by dsimp only; omega) nofun
      next hspace => exact iff_of_true rfl (Bool.not_eq_true _ ▸ hspace)

theorem toInt_range : -2 ^ 31 ≤ toInt i ∧ toInt i < 2 ^ 31 := by
  unfold toInt
  omega

theorem stripFront_range :
    0 ≤ (stripFront string).2 ∧ (stripFront string).2 ≤ (toInt (string.length - 1)).toNat ∧
      ∀ i ∈ (stripFront string).1, 0 ≤ i ∧ i ≤ (stripFront string).2 := by
  have h := @frontLoop_range string (toInt (string.length - 1)).toNat 0
  rw [Int.zero_add] at h
  exact h

theorem stripBack_range (h : 0 ≤ toInt (string.length - 1)) :
    (stripFront string).2 ≤ (stripBack string).2 ∧
      (stripBack string).2 ≤ toInt (string.length - 1) ∧
      ∀ i ∈ (stripBack string).1, (stripBack string).2 ≤ i ∧ i ≤ toInt (string.length - 1) := by
  have hfront := @stripFront_range string
  have hback := @backLoop_range string
    (toInt (string.length - 1) - (stripFront string).2).toNat (toInt (string.length - 1))
  have hlow : (stripFront string).2 ≤ (backLoop string
      (toInt (string.length - 1) - (stripFront string).2).toNat
      (toInt (string.length - 1))).2 := by omega
  exact ⟨hlow, hback.1, hback.2.2.2⟩

/-- With no blank at either end, and only then, the NUL goes behind the last byte. -/
theorem strip_stays_iff (hlast : toInt (string.length - 1) = 2 ^ 31 - 1) :
    (stripFront string).2 = 0 ∧ (stripBack string).2 = 2 ^ 31 - 1 ↔
      isspace (byteAt string 0) = false ∧ isspace (byteAt string (2 ^ 31 - 1)) = false := by
  have hfront : (stripFront string).2 = 0 ↔ isspace (byteAt string 0) = false := by
    rw [stripFront, hlast]
    exact frontLoop_stays (by omega)
  rw [hfront]
  refine and_congr_right fun hfirst => ?_
  rw [stripBack, hfront.mpr hfirst, hlast]
  exact backLoop_stays (by omega)

theorem stripIndices_inside_iff :
    Inside string (stripIndices string) ↔ StripLength string := by
  rw [stripIndices, inside_map_natOf]
  have hrange := @toInt_range (string.length - 1)
  have hlength : toInt (string.length - 1) =
      ((string.length : Int) - 1 + 2 ^ 31) % 2 ^ 32 - 2 ^ 31 := rfl
  constructor
  · intro h
    have hread := h (toInt (string.length - 1)) (by
      have hmem := (@backLoop_range string
        (toInt (string.length - 1) - (stripFront string).2).toNat
        (toInt (string.length - 1))).2.2.1
      exact List.mem_append_left _ (List.mem_append_left _ (List.mem_append_right _ hmem)))
    have hcount := h _ (List.mem_append_right _ (List.mem_singleton_self _))
    refine ⟨by omega, by omega, fun heq => ?_⟩
    by_contra hnone
    rw [not_or, Bool.not_eq_true, Bool.not_eq_true] at hnone
    obtain ⟨hstart, hend⟩ := (strip_stays_iff (by omega)).mpr hnone
    omega
  · intro h
    obtain ⟨hone, hmost, hlast⟩ := h
    have hzero : 0 ≤ toInt (string.length - 1) := by omega
    obtain ⟨hstart, hstop, hfront⟩ := @stripFront_range string
    obtain ⟨hlow, hhigh, hback⟩ := stripBack_range hzero
    have hcount : (stripBack string).2 - (stripFront string).2 + 1 < 2 ^ 31 := by
      by_contra hfull
      obtain ⟨hfirst, hend⟩ := (@strip_stays_iff string (by omega)).mp (by omega)
      rw [hfirst, hend] at hlast
      obtain hblank | hblank := hlast (by omega)
      · cases hblank
      · cases hblank
    intro i hi
    rw [List.mem_append, List.mem_append, List.mem_append, List.mem_singleton] at hi
    obtain ((hi | hi) | hi) | hi := hi
    · have hbetween := hfront i hi
      omega
    · have hbetween := hback i hi
      omega
    · split at hi
      · obtain ⟨k, hk, hi⟩ := List.mem_flatMap.mp hi
        rw [List.mem_range] at hk
        rw [List.mem_cons, List.mem_singleton] at hi
        obtain hi | hi := hi
        · omega
        · omega
      · cases hi
    · omega

theorem endingSlashInside_iff : EndingSlashInside string ↔ SlashLength string := by
  have hlength : toInt string.length = ((string.length : Int) + 2 ^ 31) % 2 ^ 32 - 2 ^ 31 := rfl
  have hreads : Inside string (endingSlashIndices string) ↔ 1 ≤ toInt string.length := by
    rw [endingSlashIndices, inside_cons, natOf_inside, and_iff_left inside_nil]
    omega
  have hfits : 1 ≤ toInt string.length →
      ((∃ size, endingSlashOwns string = some size ∧ endingSlashStores string ≤ size) ↔
        endsInSlash string ∨ string.length + 2 < 2 ^ 31) := by
    intro hone
    rw [endingSlashOwns, endingSlashStores]
    split
    next hslash => exact iff_of_true ⟨_, rfl, Nat.le_refl _⟩ (.inl hslash)
    next hslash =>
      simp only [natOf_eq_some]
      rw [or_iff_right hslash]
      constructor
      · intro h
        obtain ⟨size, hsize, hle⟩ := h
        omega
      · intro h
        exact ⟨string.length + 2, by omega, Nat.le_refl _⟩
  constructor
  · intro h
    have hone := hreads.mp h.reads
    exact ⟨by omega, by omega, (hfits hone).mp h.fits⟩
  · intro h
    have hone : 1 ≤ toInt string.length := by
      have hlow := h.1
      have hhigh := h.2.1
      omega
    exact ⟨hreads.mpr hone, (hfits hone).mpr h.2.2⟩

theorem compared_le {k : Nat} (h : k ∈ compared n dir1 dir2) :
    k ≤ dir1.length ∧ k ≤ dir2.length := by
  induction n generalizing k dir1 dir2 with
  | zero => cases h
  | succ n ih =>
      cases dir1 with
      | nil =>
          rw [List.mem_singleton.mp h]
          exact ⟨Nat.zero_le _, Nat.zero_le _⟩
      | cons c s =>
          cases dir2 with
          | nil =>
              rw [List.mem_singleton.mp h]
              exact ⟨Nat.zero_le _, Nat.zero_le _⟩
          | cons d t =>
              rw [compared, List.mem_cons] at h
              obtain hzero | hlater := h
              · rw [hzero]
                exact ⟨Nat.zero_le _, Nat.zero_le _⟩
              · split at hlater
                · obtain ⟨j, hj, hk⟩ := List.mem_map.mp hlater
                  have hle := ih hj
                  rw [← hk]
                  exact ⟨Nat.succ_le_succ hle.1, Nat.succ_le_succ hle.2⟩
                · cases hlater

/-- `strcmp` and `strncmp` stop at the end of the shorter string. -/
theorem compared_inside :
    Inside dir1 ((compared n dir1 dir2).map some) ∧
      Inside dir2 ((compared n dir1 dir2).map some) := by
  constructor
  · intro index hindex
    obtain ⟨k, hk, hindex⟩ := List.mem_map.mp hindex
    exact ⟨k, hindex.symm, (compared_le hk).1⟩
  · intro index hindex
    obtain ⟨k, hk, hindex⟩ := List.mem_map.mp hindex
    exact ⟨k, hindex.symm, (compared_le hk).2⟩

theorem dirsEqualInside_iff : DirsEqualInside dir1 dir2 ↔ DirsLength dir1 dir2 := by
  have hlen1 : toInt dir1.length = ((dir1.length : Int) + 2 ^ 31) % 2 ^ 32 - 2 ^ 31 := rfl
  have hlen2 : toInt dir2.length = ((dir2.length : Int) + 2 ^ 31) % 2 ^ 32 - 2 ^ 31 := rfl
  have hlast1 : (∃ k, natOf (toInt dir1.length - 1) = some k ∧ k ≤ dir1.length) ↔
      1 ≤ toInt dir1.length := by
    rw [natOf_inside]
    omega
  have hlast2 : (∃ k, natOf (toInt dir2.length - 1) = some k ∧ k ≤ dir2.length) ↔
      1 ≤ toInt dir2.length := by
    rw [natOf_inside]
    omega
  rw [DirsEqualInside, dirsEqualIndices, DirsLength]
  dsimp only
  split
  next heq => exact iff_of_true compared_inside ⟨by omega, by omega⟩
  next hne =>
    split
    next hlonger =>
      have hsecond : 1 ≤ toInt dir1.length → 1 ≤ toInt dir2.length := by omega
      have hright : ((toInt dir1.length + 1 = toInt dir2.length → 1 ≤ toInt dir1.length) ∧
          (toInt dir1.length = toInt dir2.length + 1 → 1 ≤ toInt dir2.length ∨
            toInt dir2.length = 0 ∧ byteAt dir1 0 ≠ '/')) ↔ 1 ≤ toInt dir1.length := by
        constructor
        · intro h
          exact h.1 (by omega)
        · intro h
          exact ⟨fun _ => h, by omega⟩
      rw [hright]
      split
      · split
        · simp only [inside_cons, hlast1, hlast2, and_iff_left compared_inside.1,
            and_iff_left compared_inside.2]
          exact and_iff_left_of_imp hsecond
        · simp only [inside_cons, hlast1, hlast2, and_iff_left inside_nil]
          exact and_iff_left_of_imp hsecond
      · simp only [inside_cons, hlast1, and_iff_left inside_nil]
    next hnot =>
      split
      next hshorter =>
        have hzero : toInt dir2.length = 0 → toInt dir1.length - 1 = 0 := by omega
        have hright : ((toInt dir1.length + 1 = toInt dir2.length → 1 ≤ toInt dir1.length) ∧
            (toInt dir1.length = toInt dir2.length + 1 → 1 ≤ toInt dir2.length ∨
              toInt dir2.length = 0 ∧ byteAt dir1 0 ≠ '/')) ↔ 1 ≤ toInt dir2.length ∨
            toInt dir2.length = 0 ∧ byteAt dir1 (toInt dir1.length - 1) ≠ '/' := by
          constructor
          · intro h
            refine (h.2 (by omega)).imp_right fun hempty => ?_
            rw [hzero hempty.1]
            exact hempty
          · intro h
            refine ⟨by omega, fun _ => h.imp_right fun hempty => ?_⟩
            rw [hzero hempty.1] at hempty
            exact hempty
        rw [hright]
        split
        next hslash =>
          have hboth : (1 ≤ toInt dir1.length ∧ 1 ≤ toInt dir2.length) ↔
              1 ≤ toInt dir2.length := by omega
          rw [or_iff_left (fun hempty => hempty.2 hslash)]
          split
          · simp only [inside_cons, hlast1, hlast2, and_iff_left compared_inside.1,
              and_iff_left compared_inside.2]
            exact hboth
          · simp only [inside_cons, hlast1, hlast2, and_iff_left inside_nil]
            exact hboth
        next hslash =>
          simp only [inside_cons, hlast1, and_iff_left inside_nil, and_iff_left hslash]
          omega
      next hfar => exact iff_of_true ⟨inside_nil, inside_nil⟩ ⟨by omega, by omega⟩

end

/-- Every index lies in its string and every result in its memory, exactly for these lengths. -/
theorem string_helpers_inside_iff (string src dir1 dir2 : Text) :
    (Inside string (stripIndices string) ↔ StripLength string) ∧
      (EndingSlashInside src ↔ SlashLength src) ∧
      (DirsEqualInside dir1 dir2 ↔ DirsLength dir1 dir2) :=
  ⟨stripIndices_inside_iff, endingSlashInside_iff, dirsEqualInside_iff⟩

/-- The byte before an empty string, as a piece between two commas and as an argument. -/
theorem string_helpers_before : ¬ Inside [] (stripIndices []) ∧ ¬ EndingSlashInside [] ∧
    ¬ DirsEqualInside [] ['/'] ∧ ¬ DirsEqualInside ['/'] [] := by
  refine ⟨fun h => ?_, fun h => ?_, fun h => ?_, fun h => ?_⟩
  · obtain ⟨i, hi, -⟩ := h none (by decide)
    cases hi
  · obtain ⟨i, hi, -⟩ := h.reads none (by decide)
    cases hi
  · obtain ⟨i, hi, -⟩ := h.1 none (by decide)
    cases hi
  · obtain ⟨i, hi, -⟩ := h.2 none (by decide)
    cases hi

end Jailkit
