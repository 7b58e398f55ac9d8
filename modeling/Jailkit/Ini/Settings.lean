import Jailkit.Ini.RoundTrip
import Jailkit.Ini.Section

/-!
What a configuration says, apart from its text. The programs look for a section and then for
the keys in it; here both are looked up in the data, and the reader of the file answers just
that. The data show two habits of the reader: a key is taken for every longer one that it
begins, and what is said of an absent key depends on the section's being the last one.
-/
namespace Jailkit.Ini

/-- A section of the file, and whether another one stands behind it. -/
structure Place where
  chosen : Section
  followed : Bool

def findPlace (name : Text) : List Section → Option Place
  | [] => none
  | s :: rest => if s.name = name then some ⟨s, !rest.isEmpty⟩ else findPlace name rest

def Config.place (config : Config) (name : Text) : Option Place := findPlace name config.sections

/-- The section of the user, else of the group, else `DEFAULT`. -/
def Config.select (config : Config) (user group : Text) : Option Place :=
  (config.place user).or ((config.place ("group ".toList ++ group)).or
    (config.place "DEFAULT".toList))

/-- The value on the first line whose key begins the one sought. -/
def Place.value (p : Place) (key : Text) : Option Text :=
  (p.chosen.entries.find? fun e => e.key.isPrefixOf key).map Entry.value

/-- What is answered for a key, and left in a buffer of `n` bytes. -/
def Place.answer (p : Place) (key : Text) (n : Nat) : Int × Text :=
  match p.value key with
  | some value => ((value.take n).length, value.take n)
  | none => (if p.followed then -1 else 0, [])

def Place.string (p : Place) (key : String) : Option Text :=
  ((p.value key.toList).map (·.take 1024)).filter (· ≠ [])

def Place.number (base : Nat) (p : Place) (key : String) : Nat :=
  match p.value key.toList with
  | some value => sscanf base (stripString (value.take 25))
  | none => if p.followed then minusOne else 0

structure OptionName (key : Text) : Prop where
  nonempty : key ≠ []
  plain : ∀ c ∈ key, isspace c = false ∧ c ≠ '=' ∧ c ≠ '[' ∧ c ≠ '#' ∧ c ≠ nul

/-- Whatever option is looked up in the section found there, the answer is that of the place. -/
def Reads (memory : Memory) (file : Text) (sec : CString) (position : Int) (p : Place) : Prop :=
  ∀ key n, OptionName key →
    (iniparserGetStringAtPosition file sec (cstring memory key) position n).ret =
        (p.answer key n).1 ∧
      (iniparserGetStringAtPosition file sec (cstring memory key) position n).buffer =
        (p.answer key n).2

section

variable {memory : Memory} {key : Text}

theorem OptionName.text (h : OptionName key) : (cstring memory key).text = key :=
  cText_eq_self fun hnul => (h.plain _ hnul).2.2.2.2 rfl

/-- Neither a blank nor one of the bytes that end a key is the next letter of an option. -/
theorem OptionName.get (memory : Memory) (h : OptionName key) {k : Nat} (hk : k ≤ key.length) :
    isspace ((cstring memory key).get k) = false ∧ '=' ≠ (cstring memory key).get k ∧
      '[' ≠ (cstring memory key).get k := by
  rw [CString.get]
  simp only [h.text]
  split
  next hlt =>
    obtain ⟨hsp, heq, hb, -⟩ := h.plain _ (List.getElem_mem hlt)
    exact ⟨hsp, Ne.symm heq, Ne.symm hb⟩
  next hge =>
    rw [if_pos (Nat.le_antisymm hk (Nat.not_lt.mp hge))]
    decide

theorem takesKey_begins {sec : CString} {t : Text} (hkey : OptionName key)
    (h : SeeksKey sec (cstring memory key) t (some 0)) (e : Entry) (hbegins : e.key <+: key) :
    TakesKey sec (cstring memory key) (t ++ (e.indent ++ (e.key ++ e.gap))) := by
  obtain ⟨u, hu⟩ := hbegins
  have hle : e.key.length ≤ key.length := by
    rw [← hu, List.length_append]
    omega
  obtain ⟨hspace, heq, -⟩ := hkey.get memory hle
  have hindent := seeksKey_padding h e.indentPadding (hkey.get memory (Nat.zero_le _)).1
  have hword := seeksKey_word hindent (by rw [hkey.text, hu]) e.key_hash
  have hgap := seeksKey_padding hword e.gapPadding hspace
  refine ⟨e.key.length, ?_, heq, by simpa using hgap⟩
  simpa using e.keyNonempty

/-- A value is read up to its newline, as far as there is room. -/
theorem readValue_cut {n : Nat} {prev : Char} {buffer w : Text} (rest : Text)
    (hprev : prev ≠ '\n' ∧ prev ≠ nul) (hw : ∀ c ∈ w, c ≠ '\n' ∧ c ≠ nul)
    (hle : buffer.length ≤ n) :
    (readValue n prev false buffer (w ++ '\n' :: rest)).buffer = (buffer ++ w).take n := by
  have hcom : ∀ c : Char, ¬ (c == '#' && (prev == '\n' || prev == nul)) = true := by
    simp [hprev.1, hprev.2]
  induction w generalizing prev buffer with
  | nil => simp [readValue, List.take_of_length_le hle]
  | cons c w ih =>
      have hc := hw c List.mem_cons_self
      rw [List.cons_append, readValue, if_neg (hcom c)]
      split
      next hroom =>
        rw [ih hc (fun d hd => hw d (List.mem_cons_of_mem c hd)) (by simp; omega)
          (by simp [hc.1, hc.2])]
        simp
      next hfull =>
        have hlen : buffer.length = n := by
          have hnot : ¬ buffer.length < n := fun hlt => hfull ⟨hlt, hc.1⟩
          omega
        rw [List.take_left' hlen]

end

section

variable {memory : Memory} {key : Text} {sec : CString} {s : Section} {back : List Section}

/-- The text of a section from its header on, with what stands behind it. -/
def fromHeader (sec : CString) (s : Section) (back : List Section) : Text :=
  '[' :: (sec.text ++ ']' :: (s.body ++ back.flatMap Section.render))

theorem seeksKey_header (memory : Memory) (hsec : s.name = sec.text) (hkey : OptionName key) :
    SeeksKey sec (cstring memory key) ('[' :: (sec.text ++ [']', '\n'])) (some 0) := by
  have hne : sec.text ≠ [] := hsec ▸ s.nameNonempty
  have hnl : '\n' ∉ sec.text := fun h => (s.namePlain _ (hsec ▸ h)).2.2.1 rfl
  have hnewline : '\n' ≠ (cstring memory key).get 0 := by
    intro h
    have hspace := (hkey.get memory (Nat.zero_le _)).1
    rw [← h] at hspace
    cases hspace
  have hstart := SeeksKey.blank (.start (takesHeader_start hne hnl)) hnewline isspace_newline
  simpa using hstart

/-- The line that is taken, among the lines of the section. -/
theorem find_cases (p : Place) (key : Text) :
    (p.value key = none ∧ ∀ e ∈ p.chosen.entries, ¬ e.key <+: key) ∨
      ∃ before e after, p.chosen.entries = before ++ e :: after ∧ e.key <+: key ∧
        (∀ e' ∈ before, ¬ e'.key <+: key) ∧ p.value key = some e.value := by
  rw [Place.value]
  cases hfind : p.chosen.entries.find? fun e => e.key.isPrefixOf key with
  | none =>
      refine Or.inl ⟨rfl, fun e he => ?_⟩
      have hnot := List.find?_eq_none.mp hfind e he
      simpa using hnot
  | some e =>
      obtain ⟨hbegins, before, after, hentries, hbefore⟩ :=
        List.find?_eq_some_iff_append.mp hfind
      refine Or.inr ⟨before, e, after, hentries, by simpa using hbegins, fun e' he' => ?_, rfl⟩
      have hnot := hbefore e' he'
      rwa [Bool.not_eq_true', ← Bool.not_eq_true, List.isPrefixOf_iff_prefix] at hnot

/-- The reader, from the header of a section on, answers what the data say. -/
theorem scanLoop_answers {n : Nat} (hsec : s.name = sec.text) (hkey : OptionName key) :
    (scanLoop sec (cstring memory key) n Scan.initial (fromHeader sec s back)).ret =
        (Place.answer ⟨s, !back.isEmpty⟩ key n).1 ∧
      (scanLoop sec (cstring memory key) n Scan.initial (fromHeader sec s back)).buffer =
        (Place.answer ⟨s, !back.isEmpty⟩ key n).2 := by
  have hspace := (hkey.get memory (Nat.zero_le _)).1
  have hstart := seeksKey_header memory hsec hkey
  rcases find_cases ⟨s, !back.isEmpty⟩ key with
    ⟨hnone, hother⟩ | ⟨before, e, after, hentries, hbegins, hother, hvalue⟩
  · have hother : ∀ e ∈ s.entries, ¬ e.key <+: (cstring memory key).text := by rwa [hkey.text]
    have hall := seeksKey_entries hstart hspace hother
    rw [Place.answer, hnone]
    cases back with
    | nil =>
        have hend : Exhausted sec (cstring memory key) (fromHeader sec s []) :=
          ⟨_, [], by simp [fromHeader, Section.body], Or.inr ⟨_, hall⟩, Or.inl rfl⟩
        rw [exhausted_scanLoop sec _ n hend]
        exact ⟨rfl, rfl⟩
    | cons s' back =>
        have hmeets : MeetsSection sec (cstring memory key) _ :=
          ⟨0, (hkey.get memory (Nat.zero_le _)).2.2, hall⟩
        have htext : fromHeader sec s (s' :: back) =
            '[' :: (sec.text ++ [']', '\n']) ++ s.entries.flatMap Entry.render ++
              '[' :: (s'.name ++ ']' :: s'.body ++ back.flatMap Section.render) := by
          simp [fromHeader, Section.body, Section.render]
        rw [htext, meetsSection_scanLoop sec _ n hmeets]
        exact ⟨rfl, rfl⟩
  · have hother : ∀ e' ∈ before, ¬ e'.key <+: (cstring memory key).text := by rwa [hkey.text]
    have hbefore := seeksKey_entries hstart hspace hother
    have htakes := takesKey_begins hkey hbefore e hbegins
    have htext : fromHeader sec s back =
        '[' :: (sec.text ++ [']', '\n']) ++ before.flatMap Entry.render ++
            (e.indent ++ (e.key ++ e.gap)) ++
          '=' :: (e.value ++ '\n' :: (after.flatMap Entry.render ++
            back.flatMap Section.render)) := by
      have hentries : s.entries = before ++ e :: after := hentries
      simp [fromHeader, Section.body, Entry.render, Entry.line, hentries]
    rw [Place.answer, hvalue, htext, takesKey_scanLoop sec _ n htakes, (readValue_ret n _ _ _ _).1,
      readValue_cut _ (by decide) (fun c hc => (e.valuePlain c hc).2) (Nat.zero_le _)]
    exact ⟨rfl, rfl⟩

theorem findPlace_none {name : Text} {sections : List Section}
    (h : findPlace name sections = none) : ∀ s ∈ sections, s.name ≠ name := by
  induction sections with
  | nil => simp
  | cons s rest ih =>
      rw [findPlace] at h
      split at h
      next => cases h
      next hname =>
        intro s' hs'
        rcases List.mem_cons.mp hs' with rfl | hs'
        · exact hname
        · exact ih h s' hs'

theorem findPlace_some {name : Text} {sections : List Section} {p : Place}
    (h : findPlace name sections = some p) :
    ∃ front s back, sections = front ++ s :: back ∧ s.name = name ∧ p = ⟨s, !back.isEmpty⟩ := by
  induction sections with
  | nil => cases h
  | cons s rest ih =>
      rw [findPlace] at h
      split at h
      next hname =>
        cases h
        exact ⟨[], s, rest, rfl, hname, rfl⟩
      next =>
        obtain ⟨front, s', back, hrest, hname, hp⟩ := ih h
        exact ⟨s :: front, s', back, by rw [hrest, List.cons_append], hname, hp⟩

/-- The file has a section exactly where the data have it, and there the reader answers what
the data say. -/
theorem hasSection_place (memory : Memory) {config : Config} (sec : CString)
    (hsize : config.render.length < 2 ^ 31) :
    (config.place sec.text = none ∧ iniparserHasSection config.render sec = none) ∨
      ∃ p unread, config.place sec.text = some p ∧
        iniparserHasSection config.render sec = some unread ∧
        Reads memory config.render sec (sectionPosition config.render unread sec) p ∧
        sectionPosition config.render unread sec < 2 ^ 31 := by
  cases hplace : config.place sec.text with
  | none => exact Or.inl ⟨rfl, search_misses (findPlace_none hplace)⟩
  | some p =>
      obtain ⟨front, s, back, hsections, hsec, rfl⟩ := findPlace_some hplace
      refine Or.inr ⟨_, _, rfl, search_finds hsections hsec, ?_⟩
      have hfile : config.render = front.flatMap Section.render ++ fromHeader sec s back := by
        simp [Config.render, hsections, fromHeader, Section.render, hsec]
      have hlength := congrArg List.length hfile
      simp only [fromHeader, List.length_append, List.length_cons] at hlength
      have hposition : sectionPosition config.render (s.body ++ back.flatMap Section.render) sec =
          config.render.length - (s.body ++ back.flatMap Section.render).length -
            sec.text.length - 2 := by
        rw [sectionPosition, Int.emod_eq_of_lt]
        · simp only [List.length_append]
          omega
        · simp only [List.length_append]
          omega
      refine ⟨fun key n hkey => ?_, ?_⟩
      · rw [iniparserGetStringAtPosition, hposition, fseek_header hfile]
        exact scanLoop_answers hsec hkey
      · rw [hposition]
        omega

theorem selectSection_place (memory : Memory) (config : Config) (user group : Text)
    (hsize : config.render.length < 2 ^ 31) :
    (config.select (cText user) (cText group) = none ∧
        selectSection memory config.render user group = none) ∨
      ∃ p sec unread, config.select (cText user) (cText group) = some p ∧
        selectSection memory config.render user group = some (sec, unread) ∧
        Reads memory config.render sec (sectionPosition config.render unread sec) p ∧
        sectionPosition config.render unread sec < 2 ^ 31 := by
  have hgroup : cText ("group ".toList ++ group) = "group ".toList ++ cText group :=
    List.takeWhile_append_of_pos fun c hc =>
      decide_eq_true (forall_of_all (p := (· ≠ nul)) (by decide) c hc)
  have hdefault : cText "DEFAULT".toList = "DEFAULT".toList := by decide
  simp only [Config.select, selectSection]
  rcases hasSection_place memory (cstring memory user) hsize with
    ⟨hplace, hnone⟩ | ⟨p, unread, hplace, hfound, hreads⟩
  · rw [cstring_text] at hplace
    rw [hplace, hnone, Option.none_or]
    rcases hasSection_place memory (cstring memory ("group ".toList ++ group)) hsize with
      ⟨hplace, hnone⟩ | ⟨p, unread, hplace, hfound, hreads⟩
    · rw [cstring_text, hgroup] at hplace
      rw [hplace, hnone, Option.none_or]
      rcases hasSection_place memory (cstring memory "DEFAULT".toList) hsize with
        ⟨hplace, hnone⟩ | ⟨p, unread, hplace, hfound, hreads⟩
      · rw [cstring_text, hdefault] at hplace
        exact Or.inl ⟨hplace, by rw [hnone]; rfl⟩
      · rw [cstring_text, hdefault] at hplace
        exact Or.inr ⟨p, _, unread, hplace, by rw [hfound]; rfl, hreads⟩
    · rw [cstring_text, hgroup] at hplace
      rw [hplace, hfound, Option.some_or]
      exact Or.inr ⟨p, _, unread, rfl, rfl, hreads⟩
  · rw [cstring_text] at hplace
    rw [hplace, hfound, Option.some_or]
    exact Or.inr ⟨p, _, unread, rfl, rfl, hreads⟩

end

section

variable {memory : Memory} {file : Text} {sec : CString} {position : Int} {p : Place}

theorem Place.value_plain {key value : Text} (h : p.value key = some value) : nul ∉ value := by
  obtain ⟨e, -, hvalue⟩ := Option.map_eq_some_iff.mp h
  rw [← hvalue]
  exact fun hnul => (e.valuePlain _ hnul).2.2 rfl

theorem Place.take_plain {key value : Text} (h : p.value key = some value) (n : Nat) :
    cText (value.take n) = value.take n :=
  cText_eq_self fun hnul => Place.value_plain h (List.mem_of_mem_take hnul)

theorem stringOption_place (h : Reads memory file sec position p) (key : String)
    (hkey : OptionName key.toList) : stringOption memory file sec position key = p.string key := by
  obtain ⟨hret, hbuffer⟩ := h key.toList 1024 hkey
  simp only [stringOption, hret, hbuffer, Place.answer, Place.string]
  cases hvalue : p.value key.toList with
  | none =>
      have hret : ¬ (if p.followed then -1 else 0 : Int) > 0 := by split <;> decide
      rw [if_neg hret]
      rfl
  | some value =>
      dsimp only
      rw [Place.take_plain hvalue, Option.map_some, Option.filter_some]
      by_cases hempty : value.take 1024 = []
      · simp [hempty]
      · have hlength := List.length_pos_iff.mpr hempty
        rw [if_pos (by simpa using hlength), if_pos (by simpa using hempty)]

theorem number_place (h : Reads memory file sec position p) (base : Nat) (key : String)
    (hkey : OptionName key.toList) :
    iniparserGetNumberAtPosition base file sec (cstring memory key.toList) position =
      p.number base key := by
  obtain ⟨hret, hbuffer⟩ := h key.toList 25 hkey
  simp only [iniparserGetNumberAtPosition, hret, hbuffer, Place.answer, Place.number]
  cases hvalue : p.value key.toList with
  | none => cases p.followed <;> rfl
  | some value =>
      have hne : ((value.take 25).length : Int) ≠ -1 := by omega
      rw [if_neg hne, Place.take_plain hvalue]

end

end Jailkit.Ini
