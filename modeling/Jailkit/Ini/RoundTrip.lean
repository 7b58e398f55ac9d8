import Jailkit.Ini.HeaderSearch

/-!
What is written as a configuration file is read back. The two scanners of iniparser.c
keep in step with the lines written: one over the lines before a header, the other
over the lines before a key.
-/
namespace Jailkit.Ini

/-- Spaces and tabs, as a writer puts them around a key. -/
def Padding (t : Text) : Prop := ∀ c ∈ t, c = ' ' ∨ c = '\t'

/-- One line `key = value` of a section. -/
structure Entry where
  indent : Text
  key : Text
  gap : Text
  value : Text
  indentPadding : Padding indent
  gapPadding : Padding gap
  keyNonempty : key ≠ []
  keyPlain : ∀ c ∈ key, isspace c = false ∧ c ≠ '=' ∧ c ≠ '[' ∧ c ≠ '#' ∧ c ≠ nul
  valuePlain : ∀ c ∈ value, c ≠ '[' ∧ c ≠ '\n' ∧ c ≠ nul

def Entry.line (e : Entry) : Text := e.indent ++ (e.key ++ (e.gap ++ '=' :: e.value))

/-- A section as it is written; its name fits the buffer of `iniparser_has_section`. -/
structure Section where
  name : Text
  entries : List Entry
  nameNonempty : name ≠ []
  nameFits : name.length ≤ 255
  namePlain : ∀ c ∈ name, c ≠ '[' ∧ c ≠ ']' ∧ c ≠ '\n' ∧ c ≠ nul

structure Config where
  sections : List Section
  distinct : (sections.map Section.name).Nodup

def Entry.render (e : Entry) : Text := e.line ++ ['\n']

def Section.body (s : Section) : Text := '\n' :: s.entries.flatMap Entry.render

def Section.render (s : Section) : Text := '[' :: (s.name ++ ']' :: s.body)

def Config.render (config : Config) : Text := config.sections.flatMap Section.render

def lookup (file unread : Text) (sec key : CString) (bufferlen : Nat) : Answer :=
  iniparserGetStringAtPosition file sec key
    (file.length - unread.length - sec.text.length - 2) bufferlen

theorem padding_space {t : Text} (h : Padding t) {c : Char} (hc : c ∈ t) :
    isspace c = true ∧ c ≠ '\n' ∧ c ≠ '[' ∧ c ≠ '#' ∧ c ≠ nul ∧ c ≠ '=' := by
  cases h c hc with
  | inl h => subst h; decide
  | inr h => subst h; decide

/-- No line written holds a bracket or a newline, or starts a comment. -/
theorem Entry.line_plain (e : Entry) :
    (∀ c ∈ e.line, c ≠ '[' ∧ c ≠ '\n' ∧ c ≠ nul) ∧ e.line.head? ≠ some '#' := by
  constructor
  · intro c hc
    simp only [Entry.line, List.mem_append, List.mem_cons] at hc
    rcases hc with hc | hc | hc | rfl | hc
    · have h := padding_space e.indentPadding hc
      exact ⟨h.2.2.1, h.2.1, h.2.2.2.2.1⟩
    · obtain ⟨hsp, -, hb, -, hnul⟩ := e.keyPlain c hc
      exact ⟨hb, fun hnl => by simp [hnl] at hsp, hnul⟩
    · have h := padding_space e.gapPadding hc
      exact ⟨h.2.2.1, h.2.1, h.2.2.2.2.1⟩
    · decide
    · exact e.valuePlain c hc
  · cases hi : e.indent with
    | nil =>
        cases hk : e.key with
        | nil => exact absurd hk e.keyNonempty
        | cons c k =>
            have hc := (e.keyPlain c (by simp [hk])).2.2.2.1
            simpa [Entry.line, hi, hk] using hc
    | cons c i =>
        have hc := (padding_space e.indentPadding (c := c) (by simp [hi])).2.2.2.1
        simpa [Entry.line, hi] using hc

theorem not_lineStart_snoc (t : Text) {c : Char} (hnl : c ≠ '\n') (hnul : c ≠ nul) :
    ¬ LineStart (t ++ [c]) := by
  simp [LineStart, hnl, hnul]

theorem nextLoop_next {s s' : NextScan} {c : Char} (h : nextStep s c = .next s') (cs : Text) :
    nextLoop s (c :: cs) = nextLoop s' cs := by
  simp only [nextLoop, h]

/-- The search runs over bytes that open nothing. -/
theorem nextLoop_passes {u w : Text} (rest : Text)
    (hhead : LineStart u → w.head? ≠ some '#') (hw : ∀ c ∈ w, c ≠ '[' ∧ c ≠ '\n' ∧ c ≠ nul) :
    nextLoop (nameState u none) (w ++ rest) = nextLoop (nameState (u ++ w) none) rest := by
  induction w generalizing u with
  | nil => simp
  | cons c w ih =>
      obtain ⟨hb, hnl, hnul⟩ := hw c List.mem_cons_self
      have hshown : Shown u c := by
        intro h
        exact hhead h.2 (by simp [h.1])
      have hstart := not_lineStart_snoc u hnl hnul
      have hstep := nextStep_shown hshown
      rw [if_neg hb] at hstep
      rw [List.cons_append, nextLoop_next hstep,
        ih (fun h => absurd h hstart) fun d hd => hw d (List.mem_cons_of_mem c hd),
        ← List.append_cons]

theorem nextLoop_newline (u rest : Text) :
    nextLoop (nameState u none) ('\n' :: rest) = nextLoop (nameState (u ++ ['\n']) none) rest := by
  have hstep := nextStep_shown (u := u) (c := '\n') (shown_of_ne (by decide))
  rw [if_neg (by decide)] at hstep
  exact nextLoop_next hstep rest

/-- The search runs over the lines of a section. -/
theorem nextLoop_entries (entries : List Entry) (u rest : Text) :
    nextLoop (nameState (u ++ ['\n']) none) (entries.flatMap Entry.render ++ rest) =
      nextLoop (nameState (u ++ ('\n' :: entries.flatMap Entry.render)) none) rest := by
  induction entries generalizing u with
  | nil => rfl
  | cons e entries ih =>
      have hnext := ih (u ++ '\n' :: e.line)
      rw [List.flatMap_cons, Entry.render, List.append_assoc, List.append_assoc,
        nextLoop_passes _ (fun _ => e.line_plain.2) e.line_plain.1,
        List.singleton_append, nextLoop_newline]
      simpa using hnext

theorem nextLoop_body (entries : List Entry) (rest : Text) :
    nextLoop NextScan.initial ('\n' :: entries.flatMap Entry.render ++ rest) =
      nextLoop (nameState ('\n' :: entries.flatMap Entry.render) none) rest := by
  have hentries := nextLoop_entries entries [] rest
  rw [List.nil_append, List.nil_append] at hentries
  exact (nextLoop_newline [] _).trans hentries

/-- Behind an open bracket the bytes of a name are kept. -/
theorem nextLoop_kept {u b w : Text} (rest : Text)
    (hb : ∀ c ∈ b ++ w, c ≠ '[' ∧ c ≠ ']' ∧ c ≠ '\n' ∧ c ≠ nul) :
    nextLoop (nameState (u ++ '[' :: b) (some b)) (w ++ rest) =
      nextLoop (nameState (u ++ '[' :: (b ++ w)) (some (b ++ w))) rest := by
  induction w generalizing b with
  | nil => simp
  | cons c w ih =>
      have hshown : Shown (u ++ '[' :: b) c := by
        apply shown_bracket
        · exact fun h => (hb _ (List.mem_append_left _ h)).2.2.1 rfl
        · exact fun h => (hb _ (List.mem_append_left _ h)).2.2.2 rfl
      have hstep := nextStep_letter (b := b) hshown (hb c (by simp)).2.1
      have hmore := @ih (b ++ [c]) (by simpa using hb)
      rw [List.cons_append, nextLoop_next hstep]
      simpa using hmore

/-- The search stops behind a header. -/
theorem nextLoop_header (u : Text) {name : Text} (hne : name ≠ [])
    (hplain : ∀ c ∈ name, c ≠ '[' ∧ c ≠ ']' ∧ c ≠ '\n' ∧ c ≠ nul) (rest : Text) :
    nextLoop (nameState u none) ('[' :: (name ++ ']' :: rest)) = some (name, rest) := by
  have hopen := nextStep_shown (u := u) (c := '[') (shown_of_ne (by decide))
  rw [if_pos rfl] at hopen
  have hkept := @nextLoop_kept u [] name (']' :: rest) hplain
  rw [nextLoop_next hopen, hkept, List.nil_append]
  simp only [nextLoop, nextStep_named _ hne]

/-- The search runs over a comment. -/
theorem nextLoop_hidden {u v : Text} (h : Hidden u v) (rest : Text) :
    nextLoop (nameState u none) (v ++ rest) = nextLoop (nameState (u ++ v) none) rest := by
  have hlast := lastChar_hidden h
  obtain ⟨hstart, w, rfl, hw⟩ := h
  have hprev : (lastChar u == '\n' || lastChar u == nul) = true := by
    cases hstart with
    | inl h => simp [h]
    | inr h => simp [h]
  have hopen : nextStep (nameState u none) '#' =
      .next { nameState u none with inComment := true, prevch := '#' } := by
    simp [nextStep, nameState, hprev]
  have hcomment : ∀ (w : Text) (s : NextScan), s.inComment = true → '\n' ∉ w →
      nextLoop s (w ++ ['\n'] ++ rest) =
        nextLoop { s with inComment := false, prevch := '\n' } rest := by
    intro w
    induction w with
    | nil => exact fun s hs _ => nextLoop_next (nextStep_inComment s '\n' hs) rest
    | cons c w ih =>
        intro s hs hw
        have hc : c ≠ '\n' := fun h => hw (by simp [h])
        rw [List.cons_append, List.cons_append, nextLoop_next (nextStep_inComment s c hs),
          ih _ (by simpa using hc) fun h => hw (List.mem_cons_of_mem c h)]
  rw [List.cons_append, nextLoop_next hopen, hcomment w _ rfl hw]
  simp [nameState, hlast]

theorem hasSectionLoop_body (sec : Text) (s : Section) (rest : Text) :
    hasSectionLoop sec NextScan.initial (s.body ++ rest) =
      hasSectionLoop sec (nameState s.body none) rest := by
  rw [hasSectionLoop_eq, Section.body, nextLoop_body, ← hasSectionLoop_eq]

theorem hasSectionLoop_header (sec u : Text) (s : Section) (rest : Text) :
    hasSectionLoop sec (nameState u none) ('[' :: (s.name ++ ']' :: rest)) =
      if s.name = sec then some rest else hasSectionLoop sec NextScan.initial rest := by
  have hnul : nul ∉ s.name := fun h => (s.namePlain _ h).2.2.2 rfl
  rw [hasSectionLoop_eq, nextLoop_header u s.nameNonempty s.namePlain]
  simp only [cText_eq_self hnul]

/-- The search runs over sections of other names. -/
theorem hasSectionLoop_sections {sec : Text} {sections : List Section} (u rest : Text)
    (hother : ∀ s ∈ sections, s.name ≠ sec) :
    ∃ u', hasSectionLoop sec (nameState u none) (sections.flatMap Section.render ++ rest) =
      hasSectionLoop sec (nameState u' none) rest := by
  induction sections generalizing u with
  | nil => exact ⟨u, rfl⟩
  | cons s sections ih =>
      obtain ⟨u', hrest⟩ := ih s.body fun s' h => hother s' (List.mem_cons_of_mem s h)
      refine ⟨u', ?_⟩
      rw [← hrest, ← hasSectionLoop_body, List.flatMap_cons, Section.render, List.cons_append,
        List.cons_append, List.append_assoc, List.append_assoc, List.cons_append,
        hasSectionLoop_header, if_neg (hother s List.mem_cons_self)]

theorem search_misses {sections : List Section} {sec : CString}
    (hother : ∀ s ∈ sections, s.name ≠ sec.text) :
    iniparserHasSection (sections.flatMap Section.render) sec = none := by
  obtain ⟨u', hrest⟩ := hasSectionLoop_sections [] [] hother
  rw [List.append_nil] at hrest
  exact hrest

theorem search_finds {config : Config} {before after : List Section} {s : Section}
    {sec : CString} (hsections : config.sections = before ++ s :: after)
    (hsec : s.name = sec.text) :
    iniparserHasSection config.render sec = some (s.body ++ after.flatMap Section.render) := by
  have hother : ∀ s' ∈ before, s'.name ≠ sec.text := by
    intro s' hs' hname
    have hdistinct := config.distinct
    rw [hsections, List.map_append, List.map_cons, List.nodup_append] at hdistinct
    exact hdistinct.2.2 s'.name (List.mem_map_of_mem hs') s.name List.mem_cons_self
      (hname.trans hsec.symm)
  obtain ⟨u', hrest⟩ := hasSectionLoop_sections [] ((s :: after).flatMap Section.render) hother
  rw [Config.render, hsections, List.flatMap_append]
  refine hrest.trans ?_
  rw [List.flatMap_cons, Section.render, List.cons_append, List.append_assoc, List.cons_append,
    hasSectionLoop_header, if_pos hsec]

/-- The counter runs over blanks. -/
theorem seeksKey_padding {sec key : CString} {t b : Text} {k : Nat}
    (h : SeeksKey sec key t (some k)) (hb : Padding b) (hk : isspace (key.get k) = false) :
    SeeksKey sec key (t ++ b) (some k) := by
  induction b generalizing t with
  | nil => rwa [List.append_nil]
  | cons c b ih =>
      have hsp := (padding_space hb List.mem_cons_self).1
      have hne : c ≠ key.get k := by
        intro h
        rw [h, hk] at hsp
        cases hsp
      rw [List.append_cons]
      exact ih (.blank h hne hsp) fun d hd => hb d (List.mem_cons_of_mem c hd)

/-- The counter runs over letters of the key, each in its turn. -/
theorem seeksKey_letters {sec key : CString} {t p w u : Text}
    (h : SeeksKey sec key (t ++ p) (some p.length)) (hkey : key.text = p ++ (w ++ u))
    (hw : '#' ∉ w) : SeeksKey sec key (t ++ (p ++ w)) (some (p ++ w).length) := by
  induction w generalizing p with
  | nil => simpa using h
  | cons c w ih =>
      have hget : c = key.get p.length := by simp [CString.get, hkey]
      have hc : c ≠ '#' := fun h => hw (by simp [h])
      have hnext := SeeksKey.letter h (shown_of_ne hc) hget
      have hmore := @ih (p ++ [c]) (by simpa using hnext) (by simp [hkey])
        fun h => hw (List.mem_cons_of_mem c h)
      simpa using hmore

theorem seeksKey_word {sec key : CString} {t w u : Text} (h : SeeksKey sec key t (some 0))
    (hkey : key.text = w ++ u) (hw : '#' ∉ w) : SeeksKey sec key (t ++ w) (some w.length) := by
  have hletters := @seeksKey_letters sec key t [] w u (by simpa using h) hkey hw
  simpa using hletters

/-- The rest of a line given up is passed. -/
theorem seeksKey_passes {sec key : CString} {t w : Text} (h : SeeksKey sec key t none)
    (hstart : ¬ LineStart t) (hw : ∀ c ∈ w, c ≠ '\n' ∧ c ≠ nul) :
    SeeksKey sec key (t ++ w) none := by
  induction w generalizing t with
  | nil => rwa [List.append_nil]
  | cons c w ih =>
      obtain ⟨hnl, hnul⟩ := hw c List.mem_cons_self
      have hnext : SeeksKey sec key (t ++ [c]) none := .passed h (fun h => hstart h.2) hnl
      rw [List.append_cons]
      exact ih hnext (not_lineStart_snoc t hnl hnul) fun d hd => hw d (List.mem_cons_of_mem c hd)

/-- Two texts part at a byte, unless one begins the other. -/
theorem parting (k w : Text) :
    k <+: w ∨ ∃ p c r u, k = p ++ c :: r ∧ w = p ++ u ∧ u.head? ≠ some c := by
  induction k generalizing w with
  | nil => exact Or.inl (List.nil_prefix)
  | cons c k ih =>
      cases w with
      | nil => exact Or.inr ⟨[], c, k, [], rfl, rfl, by simp⟩
      | cons d w =>
          by_cases hcd : c = d
          · subst hcd
            refine (ih w).imp (fun h => ?_) fun h => ?_
            · exact List.cons_prefix_cons.mpr ⟨rfl, h⟩
            · obtain ⟨p, e, r, u, rfl, rfl, hu⟩ := h
              exact ⟨c :: p, e, r, u, rfl, rfl, hu⟩
          · exact Or.inr ⟨[], c, k, d :: w, rfl, rfl, by simpa using Ne.symm hcd⟩

theorem Entry.key_hash (e : Entry) : '#' ∉ e.key := fun h => (e.keyPlain _ h).2.2.2.1 rfl

theorem Entry.key_head (e : Entry) {key : CString} (hkey : key.text = e.key) :
    isspace (key.get 0) = false := by
  cases hk : e.key with
  | nil => exact absurd hk e.keyNonempty
  | cons c k =>
      have hc : key.get 0 = c := by simp [CString.get, hkey, hk]
      rw [hc]
      exact (e.keyPlain c (by simp [hk])).1

/-- A line whose key does not begin the one sought is read to its end. -/
theorem seeksKey_entry {sec key : CString} {t : Text} (h : SeeksKey sec key t (some 0))
    (e : Entry) (hspace : isspace (key.get 0) = false) (hother : ¬ e.key <+: key.text) :
    SeeksKey sec key (t ++ e.render) (some 0) := by
  obtain ⟨p, c, r, u, hk, hkey, hu⟩ := (parting e.key key.text).resolve_left hother
  have hindent := seeksKey_padding h e.indentPadding hspace
  have hword := seeksKey_word hindent hkey (fun h => e.key_hash (by simp [hk, h]))
  have hget : c ≠ key.get p.length := by
    cases u with
    | nil =>
        simp only [List.append_nil] at hkey
        have hend : key.get p.length = nul := by simp [CString.get, hkey]
        rw [hend]
        exact (e.keyPlain c (by simp [hk])).2.2.2.2
    | cons d u =>
        have hd : key.get p.length = d := by simp [CString.get, hkey]
        rw [hd]
        exact fun h => hu (by simp [h])
  obtain ⟨hsp, heq, hb, hhash, hnul⟩ := e.keyPlain c (by simp [hk])
  have hnl : c ≠ '\n' := fun h => by simp [h] at hsp
  have hmiss := SeeksKey.miss hword (shown_of_ne hhash) hget hsp (Or.inr heq) hb
  have hrest : ∀ d ∈ r ++ (e.gap ++ '=' :: e.value), d ≠ '\n' ∧ d ≠ nul := by
    intro d hd
    have hline := e.line_plain.1 d (by
      rw [Entry.line, hk]
      simp only [List.mem_append, List.mem_cons] at hd ⊢
      tauto)
    exact hline.2
  have hpass := seeksKey_passes hmiss (not_lineStart_snoc _ hnl hnul) hrest
  have hline := SeeksKey.newline hpass
  simpa [Entry.render, Entry.line, hk] using hline

theorem seeksKey_entries {sec key : CString} {t : Text} (h : SeeksKey sec key t (some 0))
    {entries : List Entry} (hspace : isspace (key.get 0) = false)
    (hother : ∀ e ∈ entries, ¬ e.key <+: key.text) :
    SeeksKey sec key (t ++ entries.flatMap Entry.render) (some 0) := by
  induction entries generalizing t with
  | nil => simpa using h
  | cons e entries ih =>
      have hentry := seeksKey_entry h e hspace (hother e List.mem_cons_self)
      have hmore := ih hentry fun e' he' => hother e' (List.mem_cons_of_mem e he')
      simpa using hmore

theorem takesKey_entry {sec key : CString} {t : Text} (h : SeeksKey sec key t (some 0))
    (e : Entry) (hkey : key.text = e.key) :
    TakesKey sec key (t ++ (e.indent ++ (e.key ++ e.gap))) := by
  have hend : key.get e.key.length = nul := by simp [CString.get, hkey]
  have hspace := e.key_head hkey
  have hindent := seeksKey_padding h e.indentPadding hspace
  have hword := @seeksKey_word sec key _ e.key [] hindent (by simpa using hkey) e.key_hash
  have hgap := seeksKey_padding hword e.gapPadding (by rw [hend]; decide)
  refine ⟨e.key.length, ?_, ?_, by simpa using hgap⟩
  · simpa using e.keyNonempty
  · rw [hend]
    decide

theorem readValue_line {n : Nat} {prev : Char} {buffer w : Text} (rest : Text)
    (hprev : prev ≠ '\n' ∧ prev ≠ nul) (hw : ∀ c ∈ w, c ≠ '\n' ∧ c ≠ nul)
    (hroom : buffer.length + w.length < n) :
    readValue n prev false buffer (w ++ '\n' :: rest) =
      ⟨(buffer ++ w).length, buffer ++ w, rest, false⟩ := by
  induction w generalizing prev buffer with
  | nil => simp [readValue]
  | cons c w ih =>
      have hc := hw c List.mem_cons_self
      have hcom : ¬ (c == '#' && (prev == '\n' || prev == nul)) = true := by
        simp [hprev.1, hprev.2]
      simp only [List.length_cons] at hroom
      have hstore : buffer.length < n ∧ c ≠ '\n' := ⟨by omega, hc.1⟩
      rw [List.cons_append, readValue, if_neg hcom, if_pos hstore,
        ih hc (fun d hd => hw d (List.mem_cons_of_mem c hd)) (by simp; omega)]
      simp

theorem scanLoop_reads {sec key : CString} {t : Text} {before : List Entry} {e : Entry}
    {bufferlen : Nat} (ht : TakesHeader sec t) (hkey : key.text = e.key)
    (hother : ∀ e' ∈ before, ¬ e'.key <+: e.key) (hroom : e.value.length < bufferlen)
    (after : List Entry) (rest : Text) :
    scanLoop sec key bufferlen Scan.initial
        (t ++ ']' :: ('\n' :: (before ++ e :: after).flatMap Entry.render ++ rest)) =
      ⟨e.value.length, e.value, after.flatMap Entry.render ++ rest, false⟩ := by
  have hspace := e.key_head hkey
  have hnewline : '\n' ≠ key.get 0 := fun h => by simp [← h] at hspace
  have hstart : SeeksKey sec key (t ++ [']'] ++ ['\n']) (some 0) :=
    .blank (.start ht) hnewline isspace_newline
  have htake := takesKey_entry (seeksKey_entries hstart hspace (hkey ▸ hother)) e hkey
  have hread := takesKey_scanLoop sec key bufferlen htake
    (e.value ++ '\n' :: (after.flatMap Entry.render ++ rest))
  have hvalue := @readValue_line bufferlen '=' [] e.value
    (after.flatMap Entry.render ++ rest) (by decide)
    (fun c hc => (e.valuePlain c hc).2) (by simpa using hroom)
  rw [hvalue] at hread
  refine Eq.trans ?_ hread
  simp [Entry.render, Entry.line]

/-- A lookup reads the value of the first entry of its key. -/
theorem lookup_reads {config : Config} {front back : List Section} {s : Section}
    {sec key : CString} {before after : List Entry} {e : Entry} {bufferlen : Nat}
    (hsections : config.sections = front ++ s :: back) (hsec : s.name = sec.text)
    (hentries : s.entries = before ++ e :: after) (hkey : key.text = e.key)
    (hother : ∀ e' ∈ before, ¬ e'.key <+: e.key) (hroom : e.value.length < bufferlen) :
    ∃ unread, iniparserHasSection config.render sec = some unread ∧
      (lookup config.render unread sec key bufferlen).ret = e.value.length ∧
      (lookup config.render unread sec key bufferlen).buffer = e.value := by
  refine ⟨_, search_finds hsections hsec, ?_⟩
  have hne : sec.text ≠ [] := hsec ▸ s.nameNonempty
  have hnl : '\n' ∉ sec.text := fun h => (s.namePlain _ (hsec ▸ h)).2.2.1 rfl
  have hfile : config.render = front.flatMap Section.render ++
      '[' :: (sec.text ++ ']' :: (s.body ++ back.flatMap Section.render)) := by
    simp [Config.render, hsections, Section.render, hsec]
  have hread := scanLoop_reads (takesHeader_start hne hnl) hkey hother hroom after
    (back.flatMap Section.render)
  have hlookup : lookup config.render (s.body ++ back.flatMap Section.render) sec key bufferlen =
      ⟨e.value.length, e.value, after.flatMap Entry.render ++ back.flatMap Section.render,
        false⟩ := by
    rw [lookup, iniparserGetStringAtPosition, fseek_header hfile]
    refine Eq.trans ?_ hread
    simp [Section.body, hentries]
  rw [hlookup]
  exact ⟨rfl, rfl⟩

/-- The configuration is read back: its sections are the ones found, and a lookup gives
the value of the first entry of its key, if no key before it begins that key. -/
theorem config_roundTrip (config : Config) :
    (∀ sec : CString, (iniparserHasSection config.render sec).isSome ↔
      sec.text ∈ config.sections.map Section.name) ∧
    ∀ s ∈ config.sections, ∀ before e after, s.entries = before ++ e :: after →
      (∀ e' ∈ before, e'.key ≠ e.key) →
      (∀ e' ∈ before, ¬ (e'.key <+: e.key ∧ e'.key ≠ e.key)) →
      ∀ (sec key : CString) (bufferlen : Nat), sec.text = s.name → key.text = e.key →
        e.value.length < bufferlen →
        ∃ unread, iniparserHasSection config.render sec = some unread ∧
          (lookup config.render unread sec key bufferlen).ret = e.value.length ∧
          (lookup config.render unread sec key bufferlen).buffer = e.value := by
  constructor
  · intro sec
    rw [List.mem_map]
    constructor
    · intro hfound
      by_contra hnone
      have hmiss := @search_misses config.sections sec fun s hs h => hnone ⟨s, hs, h⟩
      rw [Config.render, hmiss] at hfound
      cases hfound
    · intro h
      obtain ⟨s, hs, hname⟩ := h
      obtain ⟨front, back, hsections⟩ := List.append_of_mem hs
      rw [search_finds hsections hname]
      rfl
  · intro s hs before e after hentries hfirst hproper sec key bufferlen hsec hkey hroom
    obtain ⟨front, back, hsections⟩ := List.append_of_mem hs
    exact lookup_reads hsections hsec.symm hentries hkey
      (fun e' he' h => hproper e' he' ⟨h, hfirst e' he'⟩) hroom

instance (t : Text) : Decidable (Padding t) :=
  List.decidableBAll (fun c => c = ' ' ∨ c = '\t') t

theorem forall_of_all {p : Char → Prop} [DecidablePred p] {t : Text}
    (h : (t.all fun c => decide (p c)) = true) : ∀ c ∈ t, p c := by
  simpa using h

def umask : Entry where
  indent := []
  key := "umask".toList
  gap := " ".toList
  value := " 002".toList
  indentPadding := by decide
  gapPadding := by decide
  keyNonempty := by decide
  keyPlain := forall_of_all (by decide)
  valuePlain := forall_of_all (by decide)

def executables : Entry :=
  { umask with
    key := "executables".toList
    value := " /bin/ls, # none".toList
    keyNonempty := by decide
    keyPlain := forall_of_all (by decide)
    valuePlain := forall_of_all (by decide) }

def joe : Section where
  name := "joe".toList
  entries := [umask, executables]
  nameNonempty := by decide
  nameFits := by decide
  namePlain := forall_of_all (by decide)

theorem config_roundTrip_joe :
    ∃ unread, iniparserHasSection (Config.render ⟨[joe], by decide⟩) (quoted "joe") = some unread ∧
      (lookup (Config.render ⟨[joe], by decide⟩) unread (quoted "joe") (quoted "executables")
        1024).ret = executables.value.length ∧
      (lookup (Config.render ⟨[joe], by decide⟩) unread (quoted "joe") (quoted "executables")
        1024).buffer = executables.value :=
  (config_roundTrip ⟨[joe], by decide⟩).2 joe (by simp) [umask] executables [] rfl
    (by decide) (by decide) (quoted "joe") (quoted "executables") 1024 (by decide) (by decide)
    (by decide)

end Jailkit.Ini
