import Jailkit.Ini.HeaderSearch

/-!
Where the reader stores into the arrays of its callers. A byte goes behind those that are there
already, and a NUL behind what is handed back; nothing but the room for a value is looked at.
What the search for a header finds is said only where it stays inside of its array.
-/
namespace Jailkit.Ini

/-- The indices of `buffer` that one pass of `iniparser_get_string_at_position` stores at: it
adds a byte, or ends the string it returns with. -/
def scanStores (s : Scan) : Step → List Nat
  | .next s' => if s'.buffer = s.buffer then [] else [s.buffer.length]
  | .ret _ buffer => [buffer.length]

/-- All of them; at the end of the file the string is ended behind the loop. -/
def stringStores (sec key : CString) (bufferlen : Nat) : Scan → Text → List Nat
  | s, [] =>
      match scanStep sec key bufferlen s eofChar with
      | .next s' => scanStores s (.next s') ++ [s'.buffer.length]
      | .ret value buffer => scanStores s (.ret value buffer)
  | s, c :: cs =>
      match scanStep sec key bufferlen s c with
      | .next s' => scanStores s (.next s') ++ stringStores sec key bufferlen s' cs
      | .ret value buffer => scanStores s (.ret value buffer)

/-- The same of `iniparser_next_section` and `buf`. -/
def nextStores (s : NextScan) : NextStep → List Nat
  | .next s' => if s'.buf = s.buf then [] else [s.buf.length]
  | .found name => [name.length]

/-- The stores of calls in a row, up to a name that `stops` them. -/
def searchStores (stops : Text → Bool) : NextScan → Text → List Nat
  | s, [] => nextStores s (nextStep s eofChar)
  | s, c :: cs =>
      match nextStep s c with
      | .next s' => nextStores s (.next s') ++ searchStores stops s' cs
      | .found name =>
          nextStores s (.found name) ++
            if stops name then [] else searchStores stops NextScan.initial cs

def nextSectionStores (unread : Text) : List Nat :=
  searchStores (fun _ => true) NextScan.initial unread

def hasSectionStores (file : Text) (sec : CString) : List Nat :=
  searchStores (fun name => decide (cText name = sec.text)) NextScan.initial file

def getStringStores (file : Text) (sec key : CString) (position : Int) (bufferlen : Nat) :
    List Nat :=
  stringStores sec key bufferlen Scan.initial (fseek file position)

/-- The numeric readers, which have 25 bytes for the string; `strip_string` then stores inside
of the string. -/
def getNumberStores (file : Text) (sec key : CString) (position : Int) : List Nat :=
  getStringStores file sec key position 25

def Inside (n : Nat) (stores : List Nat) : Prop := ∀ i ∈ stores, i < n

/-- The bytes of a value, with the one that stands for the end of the file. -/
def valueBytes : Char → Bool → Text → Text
  | _, true, c :: cs => valueBytes c (c != '\n') cs
  | prev, false, c :: cs =>
      if c == '#' && (prev == '\n' || prev == nul) then valueBytes c true cs
      else if c = '\n' then [] else c :: valueBytes c false cs
  | _, inComment, [] => if inComment then [] else [eofChar]

/-- The value of the key, if the lookup comes to one, leaves room for the NUL. -/
def ValueFits (sec key : CString) (text : Text) (bufferlen : Nat) : Prop :=
  ∀ t r, text = t ++ '=' :: r → TakesKey sec key t →
    (valueBytes '=' false r).length < bufferlen

/-- No name that is complete in `p` stops the calls. -/
def GoesOn (stops : Text → Bool) (p : Text) : Prop :=
  ∀ t u b r, p = t ++ (u ++ ']' :: r) → SeeksName t u (some b) → b ≠ [] → stops b = false

/-- Whatever stands in open brackets where the next byte is read, or the end of the file,
leaves room for that byte or the NUL. -/
def NamesFit (stops : Text → Bool) (text : Text) (n : Nat) : Prop :=
  ∀ t u b v, text = t ++ (u ++ v) → GoesOn stops (t ++ u) → SeeksName t u (some b) →
    (∀ c ∈ v.head?, Shown u c) → b.length < n

section

variable {sec key : CString} {n : Nat} {text r buffer : Text} {stops : Text → Bool} {prev : Char}
  {inComment : Bool}

theorem inside_append {a b : List Nat} : Inside n (a ++ b) ↔ Inside n a ∧ Inside n b :=
  List.forall_mem_append

theorem inside_singleton {i : Nat} : Inside n [i] ↔ i < n := by simp [Inside]

/-- A byte is stored where there is room for it. -/
theorem scanStores_inside {s s' : Scan} {c : Char} (h : scanStep sec key n s c = .next s') :
    Inside n (scanStores s (.next s')) := by
  have hroom : s'.buffer = s.buffer ∨ s.buffer.length < n := by
    cases hcom : s.inComment with
    | true =>
        rw [scanStep_inComment sec key n s c hcom] at h
        cases h
        exact Or.inl rfl
    | false =>
        rw [scanStep] at h
        dsimp only at h
        rw [if_neg (by simp [hcom])] at h
        split at h
        · cases h
          exact Or.inl rfl
        · split at h
          · cases h
            exact Or.inl (scanHeader_keeps sec _ c).2.2
          · split at h
            · split at h
              · cases h
                exact Or.inl rfl
              · cases h
                exact Or.inl rfl
            · split at h
              · exact Or.inl (scanKey_keeps h).2.2
              · rw [scanValue] at h
                split at h
                next hroom => exact Or.inr hroom
                next => cases h
  rw [scanStores]
  split
  · simp [Inside]
  next hgrown => exact inside_singleton.mpr (hroom.resolve_left hgrown)

/-- The last store is the NUL behind the string; all others have room. -/
theorem stringStores_inside (s : Scan) :
    Inside n (stringStores sec key n s text) ↔ (scanLoop sec key n s text).buffer.length < n := by
  induction text generalizing s with
  | nil =>
      simp only [stringStores, scanLoop]
      cases hstep : scanStep sec key n s eofChar with
      | ret value buffer => exact inside_singleton
      | next s' =>
          simp only [inside_append, scanStores_inside hstep, true_and]
          exact inside_singleton
  | cons c text ih =>
      simp only [stringStores, scanLoop]
      cases hstep : scanStep sec key n s c with
      | ret value buffer => exact inside_singleton
      | next s' =>
          simp only [inside_append, scanStores_inside hstep, true_and]
          exact ih s'

theorem take_full (hle : buffer.length ≤ n) (h : ¬ buffer.length < n) (w : Text) :
    (buffer ++ w).take n = buffer := by
  have hlen : buffer.length = n := by omega
  rw [List.take_append_of_le_length hlen.ge, ← hlen, List.take_length]

theorem readValue_bytes (hle : buffer.length ≤ n) :
    (readValue n prev inComment buffer r).buffer =
      (buffer ++ valueBytes prev inComment r).take n := by
  have hmore : ∀ buffer : Text, ∀ c, buffer.length < n → (buffer ++ [c]).length ≤ n := by
    intro buffer c hroom
    rw [List.length_append, List.length_singleton]
    exact hroom
  induction r generalizing prev inComment buffer with
  | nil =>
      cases inComment with
      | true => simp [readValue, valueBytes, List.take_of_length_le hle]
      | false =>
          by_cases hroom : buffer.length < n
          · simp [readValue, valueBytes, hroom, List.take_of_length_le (hmore buffer _ hroom)]
          · simp [readValue, valueBytes, hroom, take_full hle hroom]
  | cons c r ih =>
      cases inComment with
      | true =>
          simp only [readValue, valueBytes]
          exact ih hle
      | false =>
          by_cases hcom : (c == '#' && (prev == '\n' || prev == nul)) = true
          · simp only [readValue, valueBytes, if_pos hcom]
            exact ih hle
          · simp only [readValue, valueBytes, if_neg hcom]
            by_cases hroom : buffer.length < n
            · by_cases hnl : c = '\n'
              · simp [hnl, List.take_of_length_le hle]
              · rw [if_pos ⟨hroom, hnl⟩, if_neg hnl, ih (hmore buffer c hroom), List.append_assoc,
                  List.singleton_append]
            · rw [if_neg fun h => hroom h.1, take_full hle hroom]

theorem readValue_fits :
    (readValue n '=' false [] r).buffer.length < n ↔ (valueBytes '=' false r).length < n := by
  rw [readValue_bytes (Nat.zero_le n), List.nil_append, List.length_take]
  omega

theorem stringStores_fits (hn : 1 ≤ n) :
    Inside n (stringStores sec key n Scan.initial text) ↔ ValueFits sec key text n := by
  rw [stringStores_inside]
  constructor
  · intro h t r htext hkey
    rw [htext, takesKey_scanLoop sec key n hkey] at h
    exact readValue_fits.mp h
  · intro h
    cases lookup_cases sec key text with
    | value t r htext hkey =>
        rw [htext, takesKey_scanLoop sec key n hkey]
        exact readValue_fits.mpr (h t r htext hkey)
    | «section» t r htext hsection =>
        rw [htext, meetsSection_scanLoop sec key n hsection]
        exact hn
    | exhausted hend =>
        rw [exhausted_scanLoop sec key n hend]
        exact hn

/-- The store of the next pass, which is the last one where nothing is left to read. -/
def storesNext (s : NextScan) (rest : Text) : List Nat := nextStores s (nextStep s (rest.headD eofChar))

/-- No name that is complete on the way stops the calls. -/
def Passes (stops : Text → Bool) (s : NextScan) (v : Text) : Prop :=
  ∀ v' c r name, v = v' ++ c :: r → nextStep (searchAfter s v') c = .found name → stops name = false

theorem passes_cons {s : NextScan} {c : Char} {v : Text} :
    Passes stops s (c :: v) ↔
      (∀ name, nextStep s c = .found name → stops name = false) ∧
        Passes stops (searchStep s c) v := by
  constructor
  · intro h
    refine ⟨fun name hfound => h [] c v name rfl hfound, fun v' d r name hv hfound => ?_⟩
    exact h (c :: v') d r name (by rw [hv, List.cons_append]) hfound
  · intro ⟨hfirst, hrest⟩ v' d r name hv hfound
    cases v' with
    | nil =>
        cases hv
        exact hfirst name hfound
    | cons e v' =>
        cases hv
        exact hrest v' d r name rfl hfound

theorem searchStores_cons {s : NextScan} {c : Char} :
    Inside n (searchStores stops s (c :: text)) ↔
      Inside n (nextStores s (nextStep s c)) ∧
        ((∀ name, nextStep s c = .found name → stops name = false) →
          Inside n (searchStores stops (searchStep s c) text)) := by
  rw [searchStores, searchStep]
  cases hstep : nextStep s c with
  | next s' => simp [inside_append]
  | found name =>
      cases hstops : stops name with
      | true => simp [hstops]
      | false => simp [hstops, inside_append]

theorem searchStores_inside (s : NextScan) :
    Inside n (searchStores stops s text) ↔
      ∀ v w, text = v ++ w → Passes stops s v → Inside n (storesNext (searchAfter s v) w) := by
  induction text generalizing s with
  | nil =>
      constructor
      · intro h v w htext _
        obtain ⟨rfl, rfl⟩ := List.append_eq_nil_iff.mp htext.symm
        exact h
      · intro h
        exact h [] [] rfl fun v' c r name hv => by simp at hv
  | cons c text ih =>
      rw [searchStores_cons, ih]
      constructor
      · intro ⟨hfirst, hrest⟩ v w htext hpasses
        cases v with
        | nil =>
            rw [List.nil_append] at htext
            rw [← htext]
            exact hfirst
        | cons d v =>
            rw [List.cons_append] at htext
            obtain ⟨rfl, htail⟩ := List.cons.inj htext
            rw [passes_cons] at hpasses
            exact hrest hpasses.1 v w htail hpasses.2
      · intro h
        refine ⟨h [] (c :: text) rfl fun v' c r name hv => by simp at hv, ?_⟩
        intro hfound v w htext hpasses
        exact h (c :: v) w (by rw [htext, List.cons_append]) (passes_cons.mpr ⟨hfound, hpasses⟩)

/-- An open name leads to a store wherever no comment starts. -/
theorem nextStores_inside {u : Text} {m : Option Text} {c : Char} (hn : 1 ≤ n) :
    Inside n (nextStores (nameState u m) (nextStep (nameState u m) c)) ↔
      ∀ b, m = some b → Shown u c → b.length < n := by
  have hnone : Inside n [] := fun i hi => absurd hi List.not_mem_nil
  by_cases hc : Shown u c
  · cases m with
    | none =>
        rw [nextStep_shown hc, nextStores, if_pos (by split <;> rfl)]
        exact iff_of_true hnone fun b hb => by cases hb
    | some b =>
        have hone : (∀ b', some b = some b' → Shown u c → b'.length < n) ↔ b.length < n :=
          ⟨fun h => h b rfl hc, fun h b' hb' _ => Option.some.inj hb' ▸ h⟩
        rw [hone]
        by_cases hend : c = ']'
        · subst hend
          by_cases hb : b = []
          · subst hb
            have hsame : (nameState (u ++ [']']) (some [])).buf = (nameState u (some [])).buf := rfl
            rw [nextStep_empty, nextStores, if_pos hsame]
            exact iff_of_true hnone hn
          · rw [nextStep_named u hb]
            exact inside_singleton
        · rw [nextStep_letter hc hend, nextStores, if_neg (by simp [nameState])]
          exact inside_singleton
  · obtain ⟨rfl, hstart⟩ := Classical.not_not.mp hc
    rw [nextStep_hash m hstart, nextStores, if_pos rfl]
    exact iff_of_true hnone fun b _ hshown => absurd hshown hc

/-- The end of the file is read like a byte that starts no comment. -/
theorem storesNext_inside {u w : Text} {m : Option Text} (hn : 1 ≤ n) :
    Inside n (storesNext (nameState u m) w) ↔
      ∀ b, m = some b → (∀ c ∈ w.head?, Shown u c) → b.length < n := by
  rw [storesNext, nextStores_inside hn]
  cases w with
  | nil =>
      have heof : Shown u eofChar := shown_of_ne (by decide)
      simp [heof]
  | cons c w => simp

theorem storesNext_comment {s : NextScan} {w : Text} (hs : s.inComment = true) :
    storesNext s w = [] := by
  rw [storesNext, nextStep_inComment s _ hs]
  exact if_pos rfl

/-- The names that are found on the way are those in brackets. -/
theorem goesOn_iff {p : Text} : Passes stops NextScan.initial p ↔ GoesOn stops p := by
  constructor
  · intro h t u b r hp hname hb
    refine h (t ++ u) ']' r b (by rw [hp, List.append_assoc]) ?_
    rw [seeksName_searchAfter hname, nextStep_named u hb]
  · intro h v c r name hp hfound
    cases seeksName_total v with
    | inl hseek =>
        obtain ⟨t, u, m, rfl, hname⟩ := hseek
        rw [seeksName_searchAfter hname] at hfound
        obtain ⟨rfl, hopen, hbuf⟩ := nextStep_found hfound
        cases m with
        | none => cases hopen
        | some b =>
            have hbuf : b = name := hbuf
            subst hbuf
            refine h t u b r (by rw [hp, List.append_assoc]) hname ?_
            intro hb
            rw [hb, nextStep_empty] at hfound
            cases hfound
    | inr hcomment =>
        rw [nextStep_inComment _ _ (inComment_searchAfter hcomment)] at hfound
        cases hfound

theorem searchStores_fit (hn : 1 ≤ n) :
    Inside n (searchStores stops NextScan.initial text) ↔ NamesFit stops text n := by
  rw [searchStores_inside]
  constructor
  · intro h t u b v htext hgoes hname hshown
    have hstores := h (t ++ u) v (by rw [htext, List.append_assoc]) (goesOn_iff.mpr hgoes)
    rw [seeksName_searchAfter hname, storesNext_inside hn] at hstores
    exact hstores b rfl hshown
  · intro h v w htext hpasses
    cases seeksName_total v with
    | inl hseek =>
        obtain ⟨t, u, m, rfl, hname⟩ := hseek
        rw [seeksName_searchAfter hname, storesNext_inside hn]
        intro b hm hshown
        subst hm
        exact h t u b w (by rw [htext, List.append_assoc]) (goesOn_iff.mp hpasses) hname hshown
    | inr hcomment =>
        rw [storesNext_comment (inComment_searchAfter hcomment)]
        exact fun i hi => absurd hi List.not_mem_nil

end

/-- The reader stays inside its arrays exactly where the value with its NUL, and every name
with its own, is no longer than the array. -/
theorem reader_inside_iff (file : Text) (sec key : CString) (position : Int) (n : Nat)
    (hn : 1 ≤ n) :
    (Inside n (getStringStores file sec key position n) ↔
        ValueFits sec key (fseek file position) n) ∧
      (Inside n (nextSectionStores (fseek file position)) ↔
        NamesFit (fun _ => true) (fseek file position) n) ∧
      (Inside 256 (hasSectionStores file sec) ↔
        NamesFit (fun name => decide (cText name = sec.text)) file 256) ∧
      (Inside 25 (getNumberStores file sec key position) ↔
        ValueFits sec key (fseek file position) 25) :=
  ⟨stringStores_fits hn, searchStores_fit hn, searchStores_fit (by decide),
    stringStores_fits (by decide)⟩

/-- A value of three bytes and the names before it, in arrays of four bytes. -/
theorem reader_inside_iff_four :
    1 ≤ 4 ∧
      (Inside 4 (getStringStores "[ab]\nk=123\n".toList (quoted "ab") (quoted "k") 0 4) ↔
        ValueFits (quoted "ab") (quoted "k") (fseek "[ab]\nk=123\n".toList 0) 4) ∧
      (Inside 4 (nextSectionStores (fseek "[ab]\nk=123\n".toList 0)) ↔
        NamesFit (fun _ => true) (fseek "[ab]\nk=123\n".toList 0) 4) ∧
      (Inside 256 (hasSectionStores "[ab]\nk=123\n".toList (quoted "ab")) ↔
        NamesFit (fun name => decide (cText name = (quoted "ab").text)) "[ab]\nk=123\n".toList
          256) ∧
      (Inside 25 (getNumberStores "[ab]\nk=123\n".toList (quoted "ab") (quoted "k") 0) ↔
        ValueFits (quoted "ab") (quoted "k") (fseek "[ab]\nk=123\n".toList 0) 25) :=
  ⟨by decide, reader_inside_iff "[ab]\nk=123\n".toList (quoted "ab") (quoted "k") 0 4 (by decide)⟩

/-- A number of 25 digits is ended behind the 25 bytes, a name of 256 bytes behind the 256. -/
theorem reader_stores_behind :
    ¬ Inside 25 (getNumberStores "[a]\nk=1000000000000000000000000\n".toList (quoted "a")
        (quoted "k") 0) ∧
      ¬ Inside 256 (hasSectionStores ('[' :: (List.replicate 256 'x' ++ [']'])) (quoted "a")) :=
  ⟨fun h => absurd (h 25 (by decide)) (by decide),
    fun h => absurd (h 256 (by decide +kernel)) (by decide)⟩

/-- The search stays inside of `buffer[256]`, and it takes header lines for headers, and only
these. -/
def FindsHeaders (file : Text) (sec : CString) : Prop :=
  Inside 256 (hasSectionStores file sec) ∧ AgreesOn file sec

/-- It does exactly if the bracketed texts that it comes to fit the array, and no other bracket
hides the header line or comes before it. -/
theorem iniparserHasSection_agrees_iff (file : Text) (sec : CString) (hnul : nul ∉ file)
    (hsec : OneLine sec.text) :
    FindsHeaders file sec ↔
      NamesFit (fun name => decide (cText name = sec.text)) file 256 ∧
        SearchesStraight file sec.text :=
  and_congr (searchStores_fit (by decide)) (agreesOn_iff hnul hsec)

theorem iniparserHasSection_agrees_iff_bob :
    nul ∉ "[DEFAULT]\nshell=/bin/[sh]\n[bob]\n".toList ∧ OneLine (quoted "bob").text ∧
      (FindsHeaders "[DEFAULT]\nshell=/bin/[sh]\n[bob]\n".toList (quoted "bob") ↔
        NamesFit (fun name => decide (cText name = (quoted "bob").text))
            "[DEFAULT]\nshell=/bin/[sh]\n[bob]\n".toList 256 ∧
          SearchesStraight "[DEFAULT]\nshell=/bin/[sh]\n[bob]\n".toList (quoted "bob").text) :=
  have hline : OneLine (quoted "bob").text := ⟨by decide, by decide, by decide⟩
  ⟨by decide, hline, iniparserHasSection_agrees_iff "[DEFAULT]\nshell=/bin/[sh]\n[bob]\n".toList
    (quoted "bob") (by decide) hline⟩

/-- The name in a value is taken for the header of a user without a section. -/
theorem iniparserHasSection_in_value :
    iniparserHasSection "[DEFAULT]\nexecutables=/bin/[joe]\n".toList (quoted "joe") =
        some "\n".toList ∧
      ¬ FindsHeaders "[DEFAULT]\nexecutables=/bin/[joe]\n".toList (quoted "joe") := by
  have hfound : iniparserHasSection "[DEFAULT]\nexecutables=/bin/[joe]\n".toList
      (quoted "joe") = some "\n".toList := by decide
  refine ⟨hfound, fun h => ?_⟩
  have hagrees := h.2
  rw [AgreesOn, hfound] at hagrees
  obtain ⟨⟨p, hfile, hplace⟩, -⟩ := hagrees
  have hsplit : "[DEFAULT]\nexecutables=/bin/".toList ++ "[joe]\n".toList =
      p ++ "[joe]\n".toList := hfile
  obtain rfl := List.append_cancel_right hsplit
  exact (headerPlace_last hplace).elim (by decide) (by decide)

end Jailkit.Ini
