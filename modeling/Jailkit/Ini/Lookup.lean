import Jailkit.Ini.Parser

/-!
What a lookup reads through, said of the text alone: the bracketed text it takes
for the header, the places where it takes the key, and the places where it stops.
The judgments follow no line structure because the reader has none: letters are
matched one by one, and nothing but a mismatch or a newline after one starts over.

`lookup_cases` says where a lookup can end and `scanLoop` agrees with it.
-/
namespace Jailkit.Ini

def lastChar (t : Text) : Char := t.getLastD nul

def LineStart (t : Text) : Prop := lastChar t = '\n' ∨ lastChar t = nul

/-- `c` behind `t` does not start a comment. -/
def Shown (t : Text) (c : Char) : Prop := ¬ (c = '#' ∧ LineStart t)

/-- `u` behind `t` is a comment with the newline that ends it. -/
def Hidden (t u : Text) : Prop :=
  LineStart t ∧ ∃ w, u = '#' :: (w ++ ['\n']) ∧ '\n' ∉ w

/-- `SeeksHeader sec t m`: after `t` no header is taken yet; `m` counts the letters
matched behind an open bracket. -/
inductive SeeksHeader (sec : CString) : Text → Option Nat → Prop where
  | start : SeeksHeader sec [] none
  | hidden {t u m} : SeeksHeader sec t m → Hidden t u → SeeksHeader sec (t ++ u) m
  | other {t c} : SeeksHeader sec t none → Shown t c → c ≠ '[' →
      SeeksHeader sec (t ++ [c]) none
  | opened {t} : SeeksHeader sec t none → SeeksHeader sec (t ++ ['[']) (some 0)
  | letter {t k c} : SeeksHeader sec t (some k) → Shown t c → c = sec.get k →
      SeeksHeader sec (t ++ [c]) (some (k + 1))
  | abandoned {t k c} : SeeksHeader sec t (some k) → Shown t c → c ≠ sec.get k →
      (k = 0 ∨ c ≠ ']') → SeeksHeader sec (t ++ [c]) none

/-- The `]` behind `t` is taken for the end of the header: some letters matched,
not necessarily all of them. -/
def TakesHeader (sec : CString) (t : Text) : Prop :=
  ∃ k, k ≠ 0 ∧ ']' ≠ sec.get k ∧ SeeksHeader sec t (some k)

/-- `SeeksKey sec key t m`: after `t` the header is taken and the key is not; `m`
counts the letters matched, and is `none` on a line given up as a wrong key. -/
inductive SeeksKey (sec key : CString) : Text → Option Nat → Prop where
  | start {t} : TakesHeader sec t → SeeksKey sec key (t ++ [']']) (some 0)
  | hidden {t u m} : SeeksKey sec key t m → Hidden t u → SeeksKey sec key (t ++ u) m
  | letter {t k c} : SeeksKey sec key t (some k) → Shown t c → c = key.get k →
      SeeksKey sec key (t ++ [c]) (some (k + 1))
  | blank {t k c} : SeeksKey sec key t (some k) → c ≠ key.get k → isspace c = true →
      SeeksKey sec key (t ++ [c]) (some k)
  | miss {t k c} : SeeksKey sec key t (some k) → Shown t c → c ≠ key.get k →
      isspace c = false → (k = 0 ∨ c ≠ '=') → c ≠ '[' → SeeksKey sec key (t ++ [c]) none
  | passed {t c} : SeeksKey sec key t none → Shown t c → c ≠ '\n' →
      SeeksKey sec key (t ++ [c]) none
  | newline {t} : SeeksKey sec key t none → SeeksKey sec key (t ++ ['\n']) (some 0)

/-- The `=` behind `t` is taken for the one of the key. -/
def TakesKey (sec key : CString) (t : Text) : Prop :=
  ∃ k, k ≠ 0 ∧ '=' ≠ key.get k ∧ SeeksKey sec key t (some k)

/-- The `[` behind `t` ends the search: the key is reported absent. -/
def MeetsSection (sec key : CString) (t : Text) : Prop :=
  ∃ k, '[' ≠ key.get k ∧ SeeksKey sec key t (some k)

/-- The value behind `=`, byte by byte; `prev` is the byte before. A comment can
start in a value, but only after a NUL. -/
def readValue (bufferlen : Nat) : Char → Bool → Text → Text → Answer
  | _, true, buffer, c :: cs =>
      readValue bufferlen c (c != '\n') buffer cs
  | prev, false, buffer, c :: cs =>
      if c == '#' && (prev == '\n' || prev == nul) then
        readValue bufferlen c true buffer cs
      else if buffer.length < bufferlen ∧ c ≠ '\n' then
        readValue bufferlen c false (buffer ++ [c]) cs
      else
        ⟨buffer.length, buffer, cs, false⟩
  | _, inComment, buffer, [] =>
      if inComment = false ∧ buffer.length < bufferlen then
        ⟨(buffer ++ [eofChar]).length, buffer ++ [eofChar], [], true⟩
      else
        ⟨buffer.length, buffer, [], true⟩

@[simp] theorem lastChar_snoc (t : Text) (c : Char) : lastChar (t ++ [c]) = c := by
  simp [lastChar]

theorem lastChar_mem (t : Text) {u : Text} (hu : u ≠ []) : lastChar (t ++ u) ∈ u := by
  obtain ⟨v, c, rfl⟩ := (List.eq_nil_or_concat u).resolve_left hu
  rw [List.concat_eq_append, ← List.append_assoc, lastChar_snoc]
  simp

theorem lastChar_hidden {t u : Text} (h : Hidden t u) : lastChar (t ++ u) = '\n' := by
  obtain ⟨-, w, rfl, -⟩ := h
  rw [← List.cons_append, ← List.append_assoc, lastChar_snoc]

theorem scanStep_inComment (sec key : CString) (n : Nat) (s : Scan) (c : Char)
    (hs : s.inComment = true) :
    scanStep sec key n s c = .next { s with ch := c, inComment := c != '\n' } := by
  cases s
  by_cases hc : c = '\n' <;> simp_all [scanStep]

/-- The loop state after the bytes given, if the loop has not returned on them. -/
def scanAfter (sec key : CString) (n : Nat) : Scan → Text → Option Scan
  | s, [] => some s
  | s, c :: cs =>
      match scanStep sec key n s c with
      | .next s' => scanAfter sec key n s' cs
      | .ret _ _ => none

theorem scanAfter_append (sec key : CString) (n : Nat) (s : Scan) (t u : Text) :
    scanAfter sec key n s (t ++ u) =
      (scanAfter sec key n s t).bind fun s' => scanAfter sec key n s' u := by
  induction t generalizing s with
  | nil => rfl
  | cons c t ih =>
      simp only [List.cons_append, scanAfter]
      cases scanStep sec key n s c with
      | next s' => exact ih s'
      | ret value buffer => rfl

theorem scanAfter_preserves {sec key : CString} {n : Nat} {w : Text} (P : Scan → Prop)
    (hP : ∀ s s' c, c ∈ w → P s → scanStep sec key n s c = .next s' → P s')
    {s s' : Scan} (h : P s) (hafter : scanAfter sec key n s w = some s') : P s' := by
  induction w generalizing s with
  | nil =>
      simp only [scanAfter, Option.some.injEq] at hafter
      rwa [← hafter]
  | cons c w ih =>
      simp only [scanAfter] at hafter
      cases hstep : scanStep sec key n s c with
      | next s₁ =>
          rw [hstep] at hafter
          exact ih (fun s s' c hc => hP s s' c (List.mem_cons_of_mem _ hc))
            (hP s s₁ c List.mem_cons_self h hstep) hafter
      | ret value buffer => simp [hstep] at hafter

theorem scanAfter_snoc {sec key : CString} {n : Nat} {s s' s'' : Scan} {t : Text} {c : Char}
    (h : scanAfter sec key n s t = some s') (hstep : scanStep sec key n s' c = .next s'') :
    scanAfter sec key n s (t ++ [c]) = some s'' := by
  simp only [scanAfter_append, h, Option.bind_some, scanAfter, hstep]

theorem scanLoop_scanAfter {sec key : CString} {n : Nat} {s s' : Scan} {t : Text}
    (h : scanAfter sec key n s t = some s') (rest : Text) :
    scanLoop sec key n s (t ++ rest) = scanLoop sec key n s' rest := by
  induction t generalizing s with
  | nil =>
      simp only [scanAfter, Option.some.injEq] at h
      rw [h, List.nil_append]
  | cons c t ih =>
      simp only [List.cons_append, scanLoop]
      simp only [scanAfter] at h
      cases hstep : scanStep sec key n s c with
      | next s₁ =>
          rw [hstep] at h
          exact ih h
      | ret value buffer => simp [hstep] at h

/-- The loop inside a comment only waits for the newline. -/
theorem scanAfter_comment (sec key : CString) (n : Nat) (s : Scan) (w : Text)
    (hs : s.inComment = true) (hw : '\n' ∉ w) :
    scanAfter sec key n s (w ++ ['\n']) = some { s with ch := '\n', inComment := false } := by
  induction w generalizing s with
  | nil =>
      simp only [List.nil_append, scanAfter, scanStep_inComment sec key n s _ hs,
        bne_self_eq_false]
  | cons c w ih =>
      have hc : (c != '\n') = true := by simpa using fun h => hw (by simp [h])
      have hw' : '\n' ∉ w := fun h => hw (List.mem_cons_of_mem _ h)
      simp only [List.cons_append, scanAfter, scanStep_inComment sec key n s _ hs]
      rw [ih _ hc hw']

/-- What starts a comment behind `t`. -/
theorem scanStep_hash (sec key : CString) (n : Nat) (s : Scan)
    (hstart : s.ch = '\n' ∨ s.ch = nul) (hs : s.inComment = false) :
    scanStep sec key n s '#' = .next { s with ch := '#', inComment := true } := by
  have hprev : (s.ch == '\n' || s.ch == nul) = true := by
    rcases hstart with h | h <;> simp [h]
  simp [scanStep, hs, hprev]

theorem scanAfter_hidden (sec key : CString) (n : Nat) (s : Scan) (t u : Text)
    (hu : Hidden t u) (hch : s.ch = lastChar t) (hs : s.inComment = false) :
    scanAfter sec key n s u = some { s with ch := '\n' } := by
  obtain ⟨hstart, w, rfl, hw⟩ := hu
  have hstep := scanStep_hash sec key n s (by rwa [hch]) hs
  simp only [scanAfter, hstep]
  rw [scanAfter_comment sec key n _ w rfl hw]
  cases s
  simp_all

/-- The loop state after `t`, outside a comment, while a header is sought. -/
def headerState (t : Text) (m : Option Nat) : Scan :=
  { Scan.initial with
    ch := lastChar t
    sectionStart := m.isSome
    sectionNameChar := m.getD 0 }

/-- The loop state after `t` while a key is sought; `k` is what `keyNameChar` keeps
on the rest of a wrong line. -/
def keyState (t : Text) (m : Option Nat) (k : Nat) : Scan :=
  { Scan.initial with
    ch := lastChar t
    inSection := true
    inWrongKey := m.isNone
    keyNameChar := m.getD k }

theorem shown_guard {t : Text} {c : Char} (h : Shown t c) :
    (c == '#' && (lastChar t == '\n' || lastChar t == nul)) = false := by
  by_contra hg
  simp only [Bool.not_eq_false, Bool.and_eq_true, Bool.or_eq_true, beq_iff_eq] at hg
  exact h hg

theorem shown_of_ne {t : Text} {c : Char} (h : c ≠ '#') : Shown t c := fun hc => h hc.1

/-- One byte while a header is sought. -/
theorem scanStep_headerState (sec key : CString) (n : Nat) (t : Text) (m : Option Nat)
    (c : Char) (hc : Shown t c) :
    scanStep sec key n (headerState t m) c =
      .next (scanHeader sec { headerState t m with ch := c } c) := by
  have hguard := shown_guard hc
  simp only [scanStep, headerState, Scan.initial, hguard, Bool.false_eq_true, ite_false,
    Bool.not_false, ite_true]

theorem seeksHeader_scanAfter (sec key : CString) (n : Nat) {t : Text} {m : Option Nat}
    (h : SeeksHeader sec t m) :
    scanAfter sec key n Scan.initial t = some (headerState t m) := by
  induction h with
  | start => rfl
  | @hidden t u m _ hu ih =>
      rw [scanAfter_append, ih, Option.bind_some,
        scanAfter_hidden sec key n _ t u hu rfl rfl]
      simp only [headerState, lastChar_hidden hu]
  | @other t c _ hc hne ih =>
      refine scanAfter_snoc ih ?_
      rw [scanStep_headerState _ _ _ _ _ _ hc]
      simp [headerState, scanHeader, hne, Scan.initial]
  | @opened t _ ih =>
      refine scanAfter_snoc ih ?_
      rw [scanStep_headerState _ _ _ _ _ _ (shown_of_ne (by decide))]
      simp [headerState, scanHeader, Scan.initial]
  | @letter t k c _ hc heq ih =>
      refine scanAfter_snoc ih ?_
      rw [scanStep_headerState _ _ _ _ _ _ hc]
      simp [headerState, scanHeader, heq, Scan.initial]
  | @abandoned t k c _ hc hne hk ih =>
      refine scanAfter_snoc ih ?_
      rw [scanStep_headerState _ _ _ _ _ _ hc]
      have hnot : ¬ (k ≠ 0 ∧ c = ']') := by
        rintro ⟨hk0, rfl⟩
        exact hk.elim hk0 (fun h => h rfl)
      simp [headerState, scanHeader, hne, Scan.initial, hnot]

theorem takesHeader_scanAfter (sec key : CString) (n : Nat) {t : Text}
    (h : TakesHeader sec t) :
    scanAfter sec key n Scan.initial (t ++ [']']) =
      some (keyState (t ++ [']']) (some 0) 0) := by
  obtain ⟨k, hk, hne, hseek⟩ := h
  refine scanAfter_snoc (seeksHeader_scanAfter sec key n hseek) ?_
  rw [scanStep_headerState _ _ _ _ _ _ (shown_of_ne (by decide))]
  simp [headerState, keyState, scanHeader, hne, hk, Scan.initial]

/-- One byte while a key is sought. -/
theorem scanStep_keyState (sec key : CString) (n : Nat) (t : Text) (j k : Nat) (c : Char)
    (hc : Shown t c) :
    scanStep sec key n (keyState t (some j) k) c =
      scanKey key { keyState t (some j) k with ch := c } c := by
  have hguard := shown_guard hc
  simp only [scanStep, keyState, Scan.initial, hguard, Bool.false_eq_true, ite_false,
    Bool.not_true, Bool.not_false, ite_true, Option.isNone_some]

theorem scanStep_wrongKey (sec key : CString) (n : Nat) (t : Text) (k : Nat) (c : Char)
    (hc : Shown t c) :
    scanStep sec key n (keyState t none k) c =
      .next (if c = '\n' then keyState (t ++ [c]) (some 0) 0 else keyState (t ++ [c]) none k) := by
  have hguard := shown_guard hc
  by_cases hnl : c = '\n' <;>
    simp [scanStep, keyState, Scan.initial, hguard, hnl]

theorem scanStep_letter (sec key : CString) (n : Nat) {t : Text} {j k : Nat} {c : Char}
    (hc : Shown t c) (h : c = key.get j) :
    scanStep sec key n (keyState t (some j) k) c =
      .next (keyState (t ++ [c]) (some (j + 1)) 0) := by
  rw [scanStep_keyState _ _ _ _ _ _ _ hc]
  simp [keyState, scanKey, h, Scan.initial]

theorem scanStep_blank (sec key : CString) (n : Nat) {t : Text} {j k : Nat} {c : Char}
    (hne : c ≠ key.get j) (hsp : isspace c = true) :
    scanStep sec key n (keyState t (some j) k) c = .next (keyState (t ++ [c]) (some j) 0) := by
  have hc : Shown t c :=
    shown_of_ne fun h => by simp [h] at hsp; exact absurd hsp (by decide)
  rw [scanStep_keyState _ _ _ _ _ _ _ hc]
  simp [keyState, scanKey, hne, hsp, Scan.initial]

theorem scanStep_miss (sec key : CString) (n : Nat) {t : Text} {j k : Nat} {c : Char}
    (hc : Shown t c) (hne : c ≠ key.get j) (hsp : isspace c = false) (hk : j = 0 ∨ c ≠ '=')
    (hb : c ≠ '[') :
    scanStep sec key n (keyState t (some j) k) c = .next (keyState (t ++ [c]) none j) := by
  have hnot : ¬ (j ≠ 0 ∧ c = '=') := fun h => hk.elim h.1 (fun hc => hc h.2)
  have hnl : c ≠ '\n' := fun h => by simp [h] at hsp
  rw [scanStep_keyState _ _ _ _ _ _ _ hc]
  simp [keyState, scanKey, hne, hsp, hnot, hb, hnl, Scan.initial]

theorem scanStep_found (sec key : CString) (n : Nat) {t : Text} {j k : Nat} (hj : j ≠ 0)
    (hne : '=' ≠ key.get j) :
    scanStep sec key n (keyState t (some j) k) '=' =
      .next { keyState t (some j) k with ch := '=', foundKey := true } := by
  have hsp : isspace '=' = false := by decide
  rw [scanStep_keyState _ _ _ _ _ _ _ (shown_of_ne (by decide))]
  simp [keyState, scanKey, hne, hsp, hj, Scan.initial]

theorem scanStep_section (sec key : CString) (n : Nat) {t : Text} {j k : Nat}
    (hne : '[' ≠ key.get j) :
    scanStep sec key n (keyState t (some j) k) '[' = .ret (-1) [] := by
  have hsp : isspace '[' = false := by decide
  rw [scanStep_keyState _ _ _ _ _ _ _ (shown_of_ne (by decide))]
  simp [keyState, scanKey, hne, hsp]

theorem seeksKey_scanAfter (sec key : CString) (n : Nat) {t : Text} {m : Option Nat}
    (h : SeeksKey sec key t m) :
    ∃ k, scanAfter sec key n Scan.initial t = some (keyState t m k) := by
  induction h with
  | start h => exact ⟨0, takesHeader_scanAfter sec key n h⟩
  | @hidden t u m _ hu ih =>
      obtain ⟨k, ih⟩ := ih
      refine ⟨k, ?_⟩
      rw [scanAfter_append, ih, Option.bind_some,
        scanAfter_hidden sec key n _ t u hu rfl rfl]
      simp only [keyState, lastChar_hidden hu]
  | @letter t j c _ hc heq ih =>
      obtain ⟨k, ih⟩ := ih
      exact ⟨0, scanAfter_snoc ih (scanStep_letter sec key n hc heq)⟩
  | @blank t j c _ hne hsp ih =>
      obtain ⟨k, ih⟩ := ih
      exact ⟨0, scanAfter_snoc ih (scanStep_blank sec key n hne hsp)⟩
  | @miss t j c _ hc hne hsp hk hb ih =>
      obtain ⟨k, ih⟩ := ih
      exact ⟨j, scanAfter_snoc ih (scanStep_miss sec key n hc hne hsp hk hb)⟩
  | @passed t c _ hc hnl ih =>
      obtain ⟨k, ih⟩ := ih
      refine ⟨k, scanAfter_snoc ih ?_⟩
      rw [scanStep_wrongKey _ _ _ _ _ _ hc, if_neg hnl]
  | @newline t _ ih =>
      obtain ⟨k, ih⟩ := ih
      refine ⟨0, scanAfter_snoc ih ?_⟩
      rw [scanStep_wrongKey _ _ _ _ _ _ (shown_of_ne (by decide)), if_pos rfl]

theorem scanLoop_value (sec key : CString) (n : Nat) (s : Scan) (rest : Text)
    (hsec : s.inSection = true) (hkey : s.foundKey = true) (hwrong : s.inWrongKey = false) :
    scanLoop sec key n s rest = readValue n s.ch s.inComment s.buffer rest := by
  induction rest generalizing s with
  | nil =>
      cases hc : s.inComment with
      | true => simp [scanLoop, scanStep_inComment sec key n s _ hc, readValue]
      | false =>
          have he : (eofChar == '#') = false := by decide
          have hn : (eofChar != '\n') = true := by decide
          by_cases hroom : s.buffer.length < n <;>
            simp [scanLoop, scanStep, scanValue, readValue, hc, hsec, hkey, hwrong, he, hn, hroom]
  | cons c cs ih =>
      cases hc : s.inComment with
      | true =>
          simp only [scanLoop, scanStep_inComment sec key n s _ hc, readValue]
          exact ih _ hsec hkey hwrong
      | false =>
          by_cases hcom : (c == '#' && (s.ch == '\n' || s.ch == nul)) = true
          · have hstep : scanStep sec key n s c =
                .next { s with ch := c, inComment := true } := by
              simp only [scanStep, hc, hcom, Bool.false_eq_true, ite_false, ite_true]
            simp only [scanLoop, hstep, readValue, hcom, ite_true]
            exact ih _ hsec hkey hwrong
          · have hstep : scanStep sec key n s c = scanValue n { s with ch := c } c := by
              simp only [scanStep, hc, hcom, hsec, hkey, hwrong, Bool.false_eq_true,
                ite_false, Bool.not_true]
            simp only [scanLoop, hstep, readValue, if_neg hcom]
            by_cases hroom : s.buffer.length < n
            · by_cases hnl : c = '\n'
              · simp [scanValue, hroom, hnl]
              · simp only [scanValue, hroom, ite_true, bne_iff_ne, ne_eq, hnl,
                  not_false_eq_true, and_self]
                have h := ih { s with ch := c, buffer := s.buffer ++ [c] } hsec hkey hwrong
                simpa only [hc] using h
            · simp [scanValue, hroom]

theorem takesKey_scanLoop (sec key : CString) (n : Nat) {t : Text}
    (h : TakesKey sec key t) (rest : Text) :
    scanLoop sec key n Scan.initial (t ++ '=' :: rest) = readValue n '=' false [] rest := by
  obtain ⟨j, hj, hne, hseek⟩ := h
  obtain ⟨k, hafter⟩ := seeksKey_scanAfter sec key n hseek
  rw [scanLoop_scanAfter hafter, scanLoop, scanStep_found sec key n hj hne]
  exact scanLoop_value sec key n _ rest rfl rfl rfl

theorem meetsSection_scanLoop (sec key : CString) (n : Nat) {t : Text}
    (h : MeetsSection sec key t) (rest : Text) :
    scanLoop sec key n Scan.initial (t ++ '[' :: rest) = ⟨-1, [], rest, false⟩ := by
  obtain ⟨j, hne, hseek⟩ := h
  obtain ⟨k, hafter⟩ := seeksKey_scanAfter sec key n hseek
  rw [scanLoop_scanAfter hafter, scanLoop, scanStep_section sec key n hne]

/-- After `t`, outside a comment, neither the key nor the end of its section is met. -/
def Seeking (sec key : CString) (t : Text) : Prop :=
  (∃ m, SeeksHeader sec t m) ∨ ∃ m, SeeksKey sec key t m

/-- The whole text is read without an end: it may stop inside a comment. -/
def Exhausted (sec key : CString) (text : Text) : Prop :=
  ∃ t u, text = t ++ u ∧ Seeking sec key t ∧
    (u = [] ∨ LineStart t ∧ ∃ w, u = '#' :: w ∧ '\n' ∉ w)

theorem seeking_hidden {sec key : CString} {t u : Text} (h : Seeking sec key t)
    (hu : Hidden t u) : Seeking sec key (t ++ u) := by
  rcases h with ⟨m, h⟩ | ⟨m, h⟩
  · exact Or.inl ⟨m, .hidden h hu⟩
  · exact Or.inr ⟨m, .hidden h hu⟩

theorem seeksHeader_step {sec : CString} {t : Text} {m : Option Nat} {c : Char}
    (h : SeeksHeader sec t m) (hc : Shown t c) :
    (∃ m', SeeksHeader sec (t ++ [c]) m') ∨ c = ']' ∧ TakesHeader sec t := by
  cases m with
  | none =>
      by_cases hb : c = '['
      · subst hb
        exact Or.inl ⟨_, .opened h⟩
      · exact Or.inl ⟨_, .other h hc hb⟩
  | some k =>
      by_cases hl : c = sec.get k
      · exact Or.inl ⟨_, .letter h hc hl⟩
      · by_cases hend : k ≠ 0 ∧ c = ']'
        · obtain ⟨hk, rfl⟩ := hend
          exact Or.inr ⟨rfl, k, hk, hl, h⟩
        · refine Or.inl ⟨_, .abandoned h hc hl ?_⟩
          by_cases hk : k = 0
          · exact Or.inl hk
          · exact Or.inr fun hc => hend ⟨hk, hc⟩

theorem seeksKey_step {sec key : CString} {t : Text} {m : Option Nat} {c : Char}
    (h : SeeksKey sec key t m) (hc : Shown t c) :
    (∃ m', SeeksKey sec key (t ++ [c]) m') ∨ c = '=' ∧ TakesKey sec key t ∨
      c = '[' ∧ MeetsSection sec key t := by
  cases m with
  | none =>
      by_cases hnl : c = '\n'
      · subst hnl
        exact Or.inl ⟨_, .newline h⟩
      · exact Or.inl ⟨_, .passed h hc hnl⟩
  | some k =>
      by_cases hl : c = key.get k
      · exact Or.inl ⟨_, .letter h hc hl⟩
      · cases hsp : isspace c with
        | true => exact Or.inl ⟨_, .blank h hl hsp⟩
        | false =>
            by_cases hend : k ≠ 0 ∧ c = '='
            · obtain ⟨hk, rfl⟩ := hend
              exact Or.inr (Or.inl ⟨rfl, k, hk, hl, h⟩)
            · by_cases hb : c = '['
              · subst hb
                exact Or.inr (Or.inr ⟨rfl, k, hl, h⟩)
              · refine Or.inl ⟨_, .miss h hc hl hsp ?_ hb⟩
                by_cases hk : k = 0
                · exact Or.inl hk
                · exact Or.inr fun hc => hend ⟨hk, hc⟩

theorem seeking_step {sec key : CString} {t : Text} {c : Char}
    (h : Seeking sec key t) (hc : Shown t c) :
    Seeking sec key (t ++ [c]) ∨ c = '=' ∧ TakesKey sec key t ∨
      c = '[' ∧ MeetsSection sec key t := by
  rcases h with ⟨m, h⟩ | ⟨m, h⟩
  · rcases seeksHeader_step h hc with h' | ⟨rfl, h'⟩
    · exact Or.inl (Or.inl h')
    · exact Or.inl (Or.inr ⟨_, .start h'⟩)
  · rcases seeksKey_step h hc with h' | h'
    · exact Or.inl (Or.inr h')
    · exact Or.inr h'

/-- Where a lookup ends: at a `=` taken for the one of the key, at the `[` of a
section that follows, or not before the end of the text. -/
inductive LookupEnd (sec key : CString) (text : Text) : Prop where
  | value (t r : Text) : text = t ++ '=' :: r → TakesKey sec key t → LookupEnd sec key text
  | section (t r : Text) : text = t ++ '[' :: r → MeetsSection sec key t →
      LookupEnd sec key text
  | exhausted : Exhausted sec key text → LookupEnd sec key text

theorem lookup_cases_from (sec key : CString) (rest : Text) :
    (∀ t, Seeking sec key t → LookupEnd sec key (t ++ rest)) ∧
    (∀ t w, Seeking sec key t → LineStart t → '\n' ∉ w →
      LookupEnd sec key (t ++ '#' :: (w ++ rest))) := by
  induction rest with
  | nil =>
      constructor
      · intro t h
        exact .exhausted ⟨t, [], rfl, h, Or.inl rfl⟩
      · intro t w h hstart hw
        exact .exhausted ⟨t, _, rfl, h, Or.inr ⟨hstart, w, by simp, hw⟩⟩
  | cons c cs ih =>
      constructor
      · intro t h
        by_cases hc : Shown t c
        · rcases seeking_step h hc with h' | ⟨rfl, h'⟩ | ⟨rfl, h'⟩
          · have hend := ih.1 (t ++ [c]) h'
            rwa [List.append_assoc] at hend
          · exact .value t cs rfl h'
          · exact .section t cs rfl h'
        · obtain ⟨rfl, hstart⟩ := Classical.not_not.mp hc
          exact ih.2 t [] h hstart (by simp)
      · intro t w h hstart hw
        by_cases hnl : c = '\n'
        · subst hnl
          have hhid : Hidden t ('#' :: (w ++ ['\n'])) := ⟨hstart, w, rfl, hw⟩
          have hend := ih.1 _ (seeking_hidden h hhid)
          simpa only [List.append_assoc, List.cons_append, List.nil_append] using hend
        · have hend := ih.2 t (w ++ [c]) h hstart (by simp [hw, Ne.symm hnl])
          simpa only [List.append_assoc, List.cons_append, List.nil_append] using hend

theorem lookup_cases (sec key : CString) (text : Text) : LookupEnd sec key text :=
  (lookup_cases_from sec key text).1 [] (Or.inl ⟨none, .start⟩)

theorem scanLoop_unfinished_comment (sec key : CString) (n : Nat) (s : Scan) (w : Text)
    (hs : s.inComment = true) (hw : '\n' ∉ w) :
    scanLoop sec key n s w = ⟨s.buffer.length, s.buffer, [], true⟩ := by
  induction w generalizing s with
  | nil => simp only [scanLoop, scanStep_inComment sec key n s _ hs]
  | cons c w ih =>
      have hc : (c != '\n') = true := by simpa using fun h => hw (by simp [h])
      simp only [scanLoop, scanStep_inComment sec key n s _ hs]
      exact ih _ hc (fun h => hw (List.mem_cons_of_mem _ h))

/-- Neither the byte that was read nor comments nor the value are the business of these
parts. -/
theorem scanHeader_keeps (sec : CString) (s : Scan) (ch : Char) :
    (scanHeader sec s ch).ch = s.ch ∧ (scanHeader sec s ch).inComment = s.inComment ∧
      (scanHeader sec s ch).buffer = s.buffer := by
  rw [scanHeader]
  repeat' split
  all_goals exact ⟨rfl, rfl, rfl⟩

theorem scanKey_keeps {key : CString} {s s' : Scan} {ch : Char} (h : scanKey key s ch = .next s') :
    s'.ch = s.ch ∧ s'.inComment = s.inComment ∧ s'.buffer = s.buffer := by
  rw [scanKey] at h
  repeat' split at h
  all_goals
    cases h
    try exact ⟨rfl, rfl, rfl⟩

theorem scanKey_next (key : CString) (s : Scan) {ch : Char} (hch : ch ≠ '[') :
    ∃ s', scanKey key s ch = .next s' := by
  have hsection : ¬ (ch == '[') = true := by simpa using hch
  rw [scanKey, if_neg hsection]
  repeat' split
  all_goals exact ⟨_, rfl⟩

/-- Before the key is found the end of file adds nothing and ends nothing. -/
theorem scanStep_at_end (sec key : CString) (n : Nat) (s : Scan) (hs : s.foundKey = false) :
    ∃ s', scanStep sec key n s eofChar = .next s' ∧ s'.buffer = s.buffer := by
  cases hcom : s.inComment with
  | true => exact ⟨_, scanStep_inComment sec key n s _ hcom, rfl⟩
  | false =>
      have hhash : ¬ (eofChar == '#' && (s.ch == '\n' || s.ch == nul)) = true := by
        rw [show (eofChar == '#') = false by decide]
        exact Bool.false_ne_true
      rw [scanStep]
      dsimp only
      rw [if_neg (by simp [hcom]), if_neg hhash]
      split
      · exact ⟨_, rfl, (scanHeader_keeps sec _ _).2.2⟩
      · split
        · exact ⟨_, rfl, rfl⟩
        · rw [if_pos (by simp [hs])]
          have hch : eofChar ≠ '[' := by decide
          obtain ⟨s', hkey⟩ := scanKey_next key { s with ch := eofChar } hch
          exact ⟨s', hkey, (scanKey_keeps hkey).2.2⟩

theorem scanLoop_at_end (sec key : CString) (n : Nat) (s : Scan)
    (hs : s.foundKey = false) :
    scanLoop sec key n s [] = ⟨s.buffer.length, s.buffer, [], true⟩ := by
  obtain ⟨s', hstep, hbuffer⟩ := scanStep_at_end sec key n s hs
  simp only [scanLoop, hstep, hbuffer]

theorem seeking_scanAfter (sec key : CString) (n : Nat) {t : Text} (h : Seeking sec key t) :
    ∃ s, scanAfter sec key n Scan.initial t = some s ∧ s.ch = lastChar t ∧
      s.inComment = false ∧ s.foundKey = false ∧ s.buffer = [] := by
  rcases h with ⟨m, h⟩ | ⟨m, h⟩
  · exact ⟨_, seeksHeader_scanAfter sec key n h, rfl, rfl, rfl, rfl⟩
  · obtain ⟨k, hk⟩ := seeksKey_scanAfter sec key n h
    exact ⟨_, hk, rfl, rfl, rfl, rfl⟩

/-- A comment that the end of file cuts off is read like any other byte sequence
behind `t`: nothing is found in it. -/
theorem exhausted_scanLoop (sec key : CString) (n : Nat) {text : Text}
    (h : Exhausted sec key text) :
    scanLoop sec key n Scan.initial text = ⟨0, [], [], true⟩ := by
  obtain ⟨t, u, rfl, hseek, hu⟩ := h
  obtain ⟨s, hafter, hch, hcom, hfound, hbuf⟩ := seeking_scanAfter sec key n hseek
  rw [scanLoop_scanAfter hafter]
  rcases hu with rfl | ⟨hstart, w, rfl, hw⟩
  · rw [scanLoop_at_end sec key n s hfound, hbuf]
    rfl
  · have hstep := scanStep_hash sec key n s (by rwa [hch]) hcom
    simp only [scanLoop, hstep]
    rw [scanLoop_unfinished_comment sec key n _ w rfl hw, hbuf]
    rfl

/-- The key is found: the loop does nothing but read its value from here. -/
def Found (s : Scan) : Prop :=
  s.inSection = true ∧ s.inWrongKey = false ∧ s.foundKey = true

theorem found_step {sec key : CString} {n : Nat} {s s' : Scan} {c : Char}
    (h : Found s) (hstep : scanStep sec key n s c = .next s') : Found s' := by
  obtain ⟨ch, sn, kn, buffer, inSection, sectionStart, foundKey, inComment, inWrongKey⟩ := s
  obtain ⟨hsec, hwrong, hfound⟩ := h
  cases hsec
  cases hwrong
  cases hfound
  simp only [scanStep, Bool.false_eq_true, ite_false, Bool.not_true, scanValue] at hstep
  repeat' split at hstep
  all_goals first
    | (cases hstep; exact ⟨rfl, rfl, rfl⟩)
    | cases hstep

theorem takesKey_scanAfter (sec key : CString) (n : Nat) {t : Text} (h : TakesKey sec key t) :
    ∃ s, scanAfter sec key n Scan.initial (t ++ ['=']) = some s ∧ Found s := by
  obtain ⟨j, hj, hne, hseek⟩ := h
  obtain ⟨k, hafter⟩ := seeksKey_scanAfter sec key n hseek
  exact ⟨_, scanAfter_snoc hafter (scanStep_found sec key n hj hne), rfl, rfl, rfl⟩

theorem takesKey_foundKey {sec key : CString} {n : Nat} {t r : Text} {s : Scan}
    (h : TakesKey sec key t)
    (hafter : scanAfter sec key n Scan.initial (t ++ '=' :: r) = some s) :
    s.foundKey = true := by
  obtain ⟨s₀, h₀, hfound⟩ := takesKey_scanAfter sec key n h
  rw [List.append_cons, scanAfter_append, h₀, Option.bind_some] at hafter
  have hs : Found s :=
    scanAfter_preserves Found (fun s s' c _ hs hstep => found_step hs hstep) hfound hafter
  exact hs.2.2

/-- What is read up to the start of a line, before the key is found, is a judgment. -/
theorem seeking_prefix {sec key : CString} {n : Nat} {t w : Text} {s : Scan}
    (h : scanAfter sec key n Scan.initial (t ++ w) = some s) (hfound : s.foundKey = false)
    (hline : EndsLine t) : Seeking sec key t := by
  cases lookup_cases sec key t with
  | value t' r ht hkey =>
      subst ht
      rw [List.append_assoc, List.cons_append] at h
      exact absurd (takesKey_foundKey hkey h) (by simp [hfound])
  | «section» t' r ht hsection =>
      subst ht
      obtain ⟨j, hne, hseek⟩ := hsection
      obtain ⟨k, hafter⟩ := seeksKey_scanAfter sec key n hseek
      simp [scanAfter_append, hafter, scanAfter, scanStep_section sec key n hne] at h
  | exhausted hend =>
      obtain ⟨t', u, rfl, hseek, hu⟩ := hend
      rcases hu with rfl | ⟨-, v, rfl, hv⟩
      · rwa [List.append_nil]
      · exfalso
        have hmem := lastChar_mem t' (List.cons_ne_nil '#' v)
        rcases hline with h | ⟨t'', h⟩
        · simp at h
        · rw [h, lastChar_snoc] at hmem
          exact (List.mem_cons.mp hmem).elim (by decide) hv

theorem takesKey_seeking {sec key : CString} {t : Text} (h : TakesKey sec key t) :
    Seeking sec key t := by
  obtain ⟨j, -, -, hseek⟩ := h
  exact Or.inr ⟨_, hseek⟩

theorem takesKey_not_seeking {sec key : CString} {t r : Text} (h : TakesKey sec key t) :
    ¬ Seeking sec key (t ++ '=' :: r) := by
  intro h'
  obtain ⟨s, hafter, -, -, hfound, -⟩ := seeking_scanAfter sec key 0 h'
  exact absurd (takesKey_foundKey h hafter) (by simp [hfound])

theorem takesKey_unique {sec key : CString} {t t' r r' : Text} (h : TakesKey sec key t)
    (h' : TakesKey sec key t') (htext : t ++ '=' :: r = t' ++ '=' :: r') : t = t' := by
  cases places_of_byte htext with
  | inl hsame => exact hsame
  | inr hsplit =>
      cases hsplit with
      | inl hlater =>
          obtain ⟨a, rfl⟩ := hlater
          exact absurd (takesKey_seeking h') (takesKey_not_seeking h)
      | inr hearlier =>
          obtain ⟨a, rfl⟩ := hearlier
          exact absurd (takesKey_seeking h) (takesKey_not_seeking h')

end Jailkit.Ini
