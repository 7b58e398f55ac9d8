import Jailkit.JkLib.Strings

/-!
What `explode_string` stores into the array it has allocated, slot by slot.
-/
namespace Jailkit

/-- A slot of the array and what is stored there; `none` is the `NULL` at the end. -/
abbrev Store := Nat × Option Text

/-- `cur++`, unless the string that has been stored is empty and freed again. -/
def nextSlot (cur : Nat) (item : Text) : Nat := if item.length = 0 then cur else cur + 1

/-- The loop of `explode_string`; `piece` is what `strchr` has passed over since `tmp`. A NUL
for the delimiter is found at the end of the string, and the loop goes on behind it. -/
def explodeLoop (delimiter : Char) : Text → Nat → Text → Option (List Store)
  | piece, cur, [] =>
      if delimiter = nul then none
      else some [(cur, some (stripString piece)), (nextSlot cur (stripString piece), none)]
  | piece, cur, c :: tmp =>
      if c = delimiter then
        (explodeLoop delimiter [] (nextSlot cur (stripString piece)) tmp).map fun stores =>
          (cur, some (stripString piece)) :: stores
      else
        explodeLoop delimiter (piece ++ [c]) cur tmp

def explodeStores (string : Text) (delimiter : Char) : Option (List Store) :=
  explodeLoop delimiter [] 0 string

def countChar (string : Text) (lookfor : Char) : Nat := string.count lookfor

def explodeSize (string : Text) (delimiter : Char) : Nat := countChar string delimiter + 2

/-- What a slot holds at last. -/
def slotAfter : List Store → Nat → Option (Option Text)
  | [], _ => none
  | store :: stores, i => (slotAfter stores i).or (if store.1 = i then some store.2 else none)

/-- The array holds these strings, and `NULL` behind them. -/
def HoldsArray (stores : List Store) (items : List Text) : Prop :=
  ∀ i, i ≤ items.length → slotAfter stores i = some items[i]?

/-- The pieces between the delimiters, trimmed, without the empty ones. -/
def trimmedPieces (string : Text) (delimiter : Char) : List Text :=
  ((string.splitOn delimiter).map trim).filter fun item => !item.isEmpty

/-- Neither empty nor with white space at an end, nor with a delimiter in it. -/
structure CleanItem (delimiter : Char) (item : Text) : Prop where
  nonempty : item ≠ []
  trimmed : ∀ c, item.head? = some c ∨ item.getLast? = some c → isspace c = false
  delimiter : delimiter ∉ item

/-- Split, trim and drop empties, within the slots that there are. -/
def ExplodesTrimmed (string : Text) (delimiter : Char) : Prop :=
  ∃ stores, explodeStores string delimiter = some stores ∧
    HoldsArray stores (trimmedPieces string delimiter) ∧
    (∀ item ∈ trimmedPieces string delimiter, CleanItem delimiter item) ∧
    ∀ store ∈ stores, store.1 < explodeSize string delimiter

/-- White space and nothing else, but not empty. -/
def AllBlank (t : Text) : Prop := t ≠ [] ∧ ∀ c ∈ t, isspace c = true

def storePieces : Nat → List Text → List Store
  | cur, [] => [(cur, none)]
  | cur, piece :: pieces =>
      (cur, some (stripString piece)) :: storePieces (nextSlot cur (stripString piece)) pieces

def keptItems (pieces : List Text) : List Text :=
  (pieces.map stripString).filter fun item => !item.isEmpty

section

variable {delimiter : Char} {piece tmp string : Text} {cur : Nat} {pieces items : List Text}

theorem explodeLoop_nul : explodeLoop nul piece cur tmp = none := by
  induction tmp generalizing piece cur with
  | nil => rfl
  | cons c tmp ih =>
      rw [explodeLoop]
      split
      · rw [ih]
        rfl
      · exact ih

theorem explodeLoop_eq (hnul : delimiter ≠ nul) (hpiece : delimiter ∉ piece) :
    explodeLoop delimiter piece cur tmp =
      some (storePieces cur ((piece ++ tmp).splitOn delimiter)) := by
  induction tmp generalizing piece cur with
  | nil =>
      rw [explodeLoop, if_neg hnul, List.append_nil, List.splitOn_eq_singleton hpiece]
      rfl
  | cons c tmp ih =>
      rw [explodeLoop]
      split
      next hc =>
        rw [ih List.not_mem_nil, hc, List.splitOn_append_cons_self_of_not_mem hpiece]
        rfl
      next hc =>
        rw [ih (by simp [hpiece, Ne.symm hc]), ← List.append_cons]

theorem storePieces_bounds :
    ∀ store ∈ storePieces cur pieces, cur ≤ store.1 ∧ store.1 ≤ cur + pieces.length := by
  induction pieces generalizing cur with
  | nil => simp [storePieces]
  | cons piece pieces ih =>
      intro store hstore
      have hnext : cur ≤ nextSlot cur (stripString piece) ∧
          nextSlot cur (stripString piece) ≤ cur + 1 := by
        rw [nextSlot]
        split <;> omega
      rw [List.length_cons]
      cases List.mem_cons.mp hstore with
      | inl heq =>
          rw [heq]
          dsimp only
          omega
      | inr hmem =>
          have hbounds := ih store hmem
          omega

theorem slotAfter_unused {stores : List Store} {i : Nat} (h : ∀ store ∈ stores, store.1 ≠ i) :
    slotAfter stores i = none := by
  induction stores with
  | nil => rfl
  | cons store stores ih =>
      rw [slotAfter, if_neg (h store List.mem_cons_self),
        ih fun store' hstore' => h store' (List.mem_cons_of_mem store hstore'), Option.or_none]

/-- A slot whose string is freed again is used for the next. -/
theorem slotAfter_pieces {i : Nat} (hi : i ≤ (keptItems pieces).length) :
    slotAfter (storePieces cur pieces) (cur + i) = some (keptItems pieces)[i]? := by
  induction pieces generalizing cur i with
  | nil =>
      obtain rfl : i = 0 := by simpa [keptItems] using hi
      simp [storePieces, slotAfter, keptItems]
  | cons piece pieces ih =>
      rw [storePieces, slotAfter]
      by_cases hempty : stripString piece = []
      · have hkept : keptItems (piece :: pieces) = keptItems pieces := by
          simp [keptItems, hempty]
        have hnext : nextSlot cur (stripString piece) = cur := by simp [nextSlot, hempty]
        rw [hkept] at hi
        rw [hkept, hnext, ih hi, Option.some_or]
      · have hkept : keptItems (piece :: pieces) = stripString piece :: keptItems pieces := by
          simp [keptItems, hempty]
        have hnext : nextSlot cur (stripString piece) = cur + 1 := by simp [nextSlot, hempty]
        rw [hkept] at hi
        rw [hkept, hnext]
        cases i with
        | zero =>
            have hfirst : slotAfter (storePieces (cur + 1) pieces) cur = none := by
              apply slotAfter_unused
              intro store hstore
              have hbounds := storePieces_bounds store hstore
              omega
            simp only [Nat.add_zero, hfirst, Option.none_or, ite_true, List.getElem?_cons_zero]
        | succ i =>
            have hslot : cur + (i + 1) = cur + 1 + i := by omega
            rw [hslot, ih (by simpa using hi), Option.some_or, List.getElem?_cons_succ]

theorem holdsArray_unique {stores : List Store} {items items' : List Text}
    (h : HoldsArray stores items) (h' : HoldsArray stores items') : items = items' := by
  have hsame : ∀ i, i ≤ items.length → i ≤ items'.length → items[i]? = items'[i]? :=
    fun i hi hi' => Option.some.inj ((h i hi).symm.trans (h' i hi'))
  apply List.ext_getElem?
  intro i
  by_cases hlen : items.length = items'.length
  · by_cases hi : i ≤ items.length
    · exact hsame i hi (hlen ▸ hi)
    · rw [List.getElem?_eq_none (by omega), List.getElem?_eq_none (by omega)]
  · cases Nat.lt_or_gt_of_ne hlen with
    | inl hlt =>
        have hend := hsame items.length (Nat.le_refl _) (by omega)
        simp [hlt] at hend
    | inr hgt =>
        have hend := hsame items'.length (by omega) (Nat.le_refl _)
        simp [hgt] at hend

theorem length_splitOn (string : Text) (delimiter : Char) :
    (string.splitOn delimiter).length = countChar string delimiter + 1 := by
  induction string with
  | nil => rfl
  | cons c string ih =>
      rw [List.splitOn_cons_eq_if_modifyHead, countChar, List.count_cons]
      split
      · rw [List.length_cons, ih]
        rfl
      · rw [List.length_modifyHead, ih]
        rfl

theorem trim_trim (t : Text) : trim (trim t) = trim t := by
  have hblank : ∀ u : Text, ∀ c ∈ u.takeWhile isspace, isspace c = true :=
    fun u c hc => List.mem_takeWhile_imp hc
  have hfront := @List.takeWhile_append_dropWhile _ isspace t
  have hback := @List.takeWhile_append_dropWhile _ isspace (t.dropWhile isspace).reverse
  have hsplit : t.dropWhile isspace =
      trim t ++ ((t.dropWhile isspace).reverse.takeWhile isspace).reverse := by
    rw [trim, ← List.reverse_append, hback, List.reverse_reverse]
  have htrim : trim (t.dropWhile isspace) = trim t := by
    rw [← trim_blanks_append (hblank t) (t.dropWhile isspace), hfront]
  have hinner : trim (t.dropWhile isspace) = trim (trim t) := by
    conv_lhs => rw [hsplit]
    exact trim_append_blanks (fun c hc => hblank _ c (List.mem_reverse.mp hc)) _
  exact hinner.symm.trans htrim

theorem keepOne_ne_nil {t : Text} (h : t ≠ []) : keepOne t ≠ [] := by
  fun_induction keepOne t with
  | case1 c d t _ ih => exact ih (List.cons_ne_nil d t)
  | case2 => simp
  | case3 => exact h

/-- Where there is something else, all the white space at the start goes. -/
theorem keepOne_eq {t : Text} (h : ∃ c ∈ t, isspace c = false) :
    keepOne t = t.dropWhile isspace := by
  fun_induction keepOne t with
  | case1 c d t hc ih =>
      obtain ⟨e, he, hspace⟩ := h
      rw [List.dropWhile_cons_of_pos hc]
      apply ih
      cases List.mem_cons.mp he with
      | inl heq =>
          rw [heq, hc] at hspace
          cases hspace
      | inr hmem => exact ⟨e, hmem, hspace⟩
  | case2 c d t hc => rw [List.dropWhile_cons_of_neg hc]
  | case3 t hshort =>
      obtain ⟨e, he, hspace⟩ := h
      cases t with
      | nil => rfl
      | cons c t =>
          cases t with
          | nil =>
              rw [← List.mem_singleton.mp he, List.dropWhile_cons_of_neg (by simp [hspace])]
          | cons d t => exact absurd rfl (hshort c d t)

theorem stripString_eq_trim {t : Text} (h : ¬ AllBlank t) : stripString t = trim t := by
  by_cases hempty : t = []
  · rw [hempty]
    rfl
  · have hinked : ∃ c ∈ t, isspace c = false := by
      by_contra hnone
      refine h ⟨hempty, fun c hc => ?_⟩
      by_contra hspace
      exact hnone ⟨c, hc, by simpa using hspace⟩
    have hleft : ∃ c ∈ (t.dropWhile isspace).reverse, isspace c = false := by
      obtain ⟨c, hc, hspace⟩ := hinked
      rw [← @List.takeWhile_append_dropWhile _ isspace t] at hc
      cases List.mem_append.mp hc with
      | inl hfront =>
          rw [List.mem_takeWhile_imp hfront] at hspace
          cases hspace
      | inr hback => exact ⟨c, List.mem_reverse.mpr hback, hspace⟩
    rw [stripString, keepOne_eq hinked, keepOne_eq hleft, trim]

theorem keepOne_blank {t : Text} (h : AllBlank t) : AllBlank (keepOne t) := by
  obtain ⟨b, ht, -⟩ := keepOne_drops t
  refine ⟨keepOne_ne_nil h.1, fun c hc => h.2 c ?_⟩
  rw [ht]
  exact List.mem_append_right b hc

/-- Of white space alone one byte stays. -/
theorem stripString_blank {t : Text} (h : AllBlank t) : AllBlank (stripString t) := by
  have hreverse : ∀ {u : Text}, AllBlank u → AllBlank u.reverse :=
    fun hu => ⟨by simp [hu.1], fun c hc => hu.2 c (List.mem_reverse.mp hc)⟩
  exact hreverse (keepOne_blank (hreverse (keepOne_blank h)))

theorem cleanItem_trimmed {item : Text} (h : item ∈ trimmedPieces string delimiter) :
    CleanItem delimiter item := by
  obtain ⟨hmem, hempty⟩ := List.mem_filter.mp h
  obtain ⟨piece, hpiece, rfl⟩ := List.mem_map.mp hmem
  have hne : trim piece ≠ [] := by simpa using hempty
  refine ⟨hne, fun c hc => ?_, fun hdelim => (mem_splitOn hpiece).1 (mem_of_mem_trim hdelim)⟩
  cases hc with
  | inl hhead =>
      obtain ⟨rest, hrest⟩ := List.head?_eq_some_iff.mp hhead
      exact trimmed_head (trim_trim piece) hrest
  | inr hlast =>
      have hsplit := List.dropLast_append_getLast? c hlast
      exact trimmed_last (trim_trim piece) hsplit.symm

theorem explodeStores_holds (hnul : delimiter ≠ nul) :
    ∃ stores, explodeStores string delimiter = some stores ∧
      HoldsArray stores (explodeString string delimiter) ∧
      ∀ store ∈ stores, store.1 < explodeSize string delimiter := by
  refine ⟨_, explodeLoop_eq hnul List.not_mem_nil, fun i hi => ?_, fun store hstore => ?_⟩
  · have hslot := @slotAfter_pieces 0 (string.splitOn delimiter) i hi
    rwa [Nat.zero_add] at hslot
  · have hbounds := storePieces_bounds store hstore
    rw [List.nil_append, length_splitOn] at hbounds
    rw [explodeSize]
    omega

theorem pieces_of_explodesTrimmed (h : ExplodesTrimmed string delimiter) :
    delimiter ≠ nul ∧ ∀ piece ∈ string.splitOn delimiter, ¬ AllBlank piece := by
  obtain ⟨stores, hstores, hholds, hclean, -⟩ := h
  have hnul : delimiter ≠ nul := by
    intro hnul
    rw [explodeStores, hnul, explodeLoop_nul] at hstores
    cases hstores
  refine ⟨hnul, fun piece hpiece hblank => ?_⟩
  obtain ⟨stores', hstores', hholds', -⟩ := @explodeStores_holds delimiter string hnul
  obtain rfl := Option.some.inj (hstores.symm.trans hstores')
  have hkept := stripString_blank hblank
  have hmem : stripString piece ∈ explodeString string delimiter :=
    List.mem_filter.mpr ⟨List.mem_map_of_mem hpiece, by simpa using hkept.1⟩
  rw [← holdsArray_unique hholds hholds'] at hmem
  obtain ⟨c, rest, hitem⟩ := List.exists_cons_of_ne_nil hkept.1
  have hhead := (hclean _ hmem).trimmed c (Or.inl (by rw [hitem]; rfl))
  rw [hkept.2 c (by rw [hitem]; exact List.mem_cons_self)] at hhead
  cases hhead

/-- All is as it should be but for a piece of nothing but white space: one byte of it is kept
for an item. -/
theorem explodeString_trims_iff (string : Text) (delimiter : Char) :
    ExplodesTrimmed string delimiter ↔
      delimiter ≠ nul ∧ ∀ piece ∈ string.splitOn delimiter, ¬ AllBlank piece := by
  refine ⟨pieces_of_explodesTrimmed, fun h => ?_⟩
  obtain ⟨hnul, hpieces⟩ := h
  obtain ⟨stores, hstores, hholds, hbounds⟩ := @explodeStores_holds delimiter string hnul
  have hmap : (string.splitOn delimiter).map stripString = (string.splitOn delimiter).map trim :=
    List.map_congr_left fun piece hpiece => stripString_eq_trim (hpieces piece hpiece)
  have hsame : explodeString string delimiter = trimmedPieces string delimiter := by
    rw [explodeString, trimmedPieces, hmap]
  exact ⟨stores, hstores, hsame ▸ hholds, fun item => cleanItem_trimmed, hbounds⟩

/-- A blank between two commas is an item. -/
theorem explodeString_keeps_blank :
    explodeString "a, ,b".toList ',' = ["a".toList, " ".toList, "b".toList] ∧
      ¬ ExplodesTrimmed "a, ,b".toList ',' := by
  refine ⟨by decide, fun h => ?_⟩
  exact (pieces_of_explodesTrimmed h).2 " ".toList (by decide) ⟨by decide, by simp [isspace]⟩

end

end Jailkit
