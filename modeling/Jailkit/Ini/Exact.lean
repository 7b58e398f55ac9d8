import Jailkit.Ini.Lookup

/-!
When a value found is the value of the option asked for. What the answer promises is
said of the lines of the text; the condition under which the reader keeps the promise
is said of its counters where it stops.
-/
namespace Jailkit.Ini

/-- The text of one line behind the place where it is read from. -/
def valuePart (r : Text) : Text := r.takeWhile (· ≠ '\n')

/-- No line that starts in `B` has `[` for its first non-blank. -/
def NoHeader (B : Text) : Prop :=
  ∀ B₁ I B₂, B = B₁ ++ '\n' :: (I ++ '[' :: B₂) → ¬ Blank I

/-- `t` ends a line, and the last header line in it is `[sec]`. -/
def UnderHeader (sec t : Text) : Prop :=
  ∃ A I B, t = A ++ (I ++ '[' :: (sec ++ ']' :: (B ++ ['\n']))) ∧
    EndsLine A ∧ Blank I ∧ '\n' ∉ sec ∧ NoHeader B

/-- `t` reaches up to the `=` of a line `K = V` in section `[sec]` where `K` is `key`. -/
def KeyLine (sec key t : Text) : Prop :=
  ∃ t₁ K, t = t₁ ++ K ∧ UnderHeader sec t₁ ∧ '\n' ∉ K ∧ K.head? ≠ some '#' ∧ trim K = key

/-- The promise: a value comes from behind the `=` of one line for the key. The `=`
is the one the reader takes, for another line may hold the same bytes. -/
def AnswersExactly (sec key : CString) (text : Text) (a : Answer) : Prop :=
  0 < a.ret → ∃ t r, text = t ++ '=' :: r ∧ TakesKey sec key t ∧
    KeyLine sec.text key.text t ∧ a.buffer <+: valuePart r

/-- The counter is zero where the line starts and `strlen(key)` at its `=`, and the line
up to the `=`, blanks at its ends aside, is not longer than the key. -/
def CountsStraight (sec key : CString) (t : Text) : Prop :=
  ∃ t₁ w, t = t₁ ++ w ∧ UnderHeader sec.text t₁ ∧ '\n' ∉ w ∧
    SeeksKey sec key t₁ (some 0) ∧ SeeksKey sec key t (some key.text.length) ∧
    (trim w).length = key.text.length

/-- No comment starts inside the value, and a newline or the end of the buffer ends it. -/
def ReadsToEnd (bufferlen : Nat) (r : Text) : Prop :=
  (∀ u w, r = u ++ nul :: '#' :: w → '\n' ∉ u → bufferlen ≤ u.length) ∧
    ('\n' ∈ r ∨ bufferlen ≤ r.length)

def StopsStraight (sec key : CString) (text : Text) (bufferlen : Nat) : Prop :=
  ∀ t r, text = t ++ '=' :: r → TakesKey sec key t → bufferlen ≠ 0 → r.head? ≠ some '\n' →
    CountsStraight sec key t ∧ ReadsToEnd bufferlen r

/-- Letters of the key from `j` up to `k`, each in its turn, with blanks skipped. -/
inductive Matched (key : CString) : Nat → Text → Nat → Prop where
  | nil {k} : Matched key k [] k
  | letter {j w k c} : c = key.get j → Matched key (j + 1) w k → Matched key j (c :: w) k
  | blank {j w k c} : c ≠ key.get j → isspace c = true → Matched key j w k →
      Matched key j (c :: w) k

/-- The line is given up for the key, or the key is found: this lasts to its end. -/
def Settled (s : Scan) : Prop :=
  s.inSection = true ∧ (s.inComment = true ∨ s.inWrongKey = true ∨ s.foundKey = true)

theorem settled_step {sec key : CString} {n : Nat} {s s' : Scan} {c : Char}
    (h : Settled s) (hc : c ≠ '\n') (hstep : scanStep sec key n s c = .next s') :
    Settled s' := by
  obtain ⟨ch, sn, kn, buffer, inSection, sectionStart, foundKey, inComment, inWrongKey⟩ := s
  obtain ⟨hsec, h⟩ := h
  cases hsec
  cases inComment with
  | true =>
      simp only [scanStep_inComment, Step.next.injEq] at hstep
      subst hstep
      exact ⟨rfl, Or.inl (by simpa using hc)⟩
  | false =>
      simp only [scanStep, Bool.false_eq_true, ite_false, Bool.not_true, beq_iff_eq, hc,
        scanValue] at hstep
      split at hstep
      · cases hstep
        exact ⟨rfl, Or.inl rfl⟩
      · cases inWrongKey with
        | true =>
            cases hstep
            exact ⟨rfl, Or.inr (Or.inl rfl)⟩
        | false =>
            have hfound : foundKey = true := by simpa using h
            subst hfound
            simp only [Bool.false_eq_true, ite_false, Bool.not_true, bne_iff_ne, ne_eq, hc,
              not_false_eq_true, ite_true] at hstep
            split at hstep
            · cases hstep
              exact ⟨rfl, Or.inr (Or.inr rfl)⟩
            · cases hstep

theorem settled_scanAfter {sec key : CString} {n : Nat} {s s' : Scan} {w : Text}
    (h : Settled s) (hw : '\n' ∉ w) (hafter : scanAfter sec key n s w = some s') :
    Settled s' := by
  refine scanAfter_preserves Settled (fun s s' c hc hs hstep => ?_) h hafter
  exact settled_step hs (fun hnl => hw (hnl ▸ hc)) hstep

theorem not_settled_keyState (t : Text) (j k : Nat) : ¬ Settled (keyState t (some j) k) := by
  simp [Settled, keyState, Scan.initial]

/-- A line read without an end keeps the key sought only through its letters. -/
theorem scanAfter_matched {sec key : CString} {n : Nat} {t t₁ w : Text} {j k k₀ k₁ : Nat}
    (hw : '\n' ∉ w)
    (h : scanAfter sec key n (keyState t₁ (some j) k₀) w = some (keyState t (some k) k₁)) :
    Matched key j w k ∧ (LineStart t₁ → w.head? ≠ some '#') := by
  induction w generalizing t₁ j k₀ with
  | nil =>
      simp only [scanAfter, Option.some.injEq] at h
      have hjk : j = k := congrArg Scan.keyNameChar h
      exact ⟨hjk ▸ .nil, by simp⟩
  | cons c w ih =>
      have hnl : c ≠ '\n' := fun h => hw (by simp [h])
      have hw' : '\n' ∉ w := fun h => hw (List.mem_cons_of_mem _ h)
      have hlost : ∀ s, scanStep sec key n (keyState t₁ (some j) k₀) c = .next s →
          ¬ Settled s := by
        intro s hstep hs
        simp only [scanAfter, hstep] at h
        exact not_settled_keyState t k k₁ (settled_scanAfter hs hw' h)
      by_cases hc : Shown t₁ c
      · have hhead : LineStart t₁ → (c :: w).head? ≠ some '#' := by
          intro hstart hc'
          exact hc ⟨by simpa using hc', hstart⟩
        by_cases hl : c = key.get j
        · simp only [scanAfter, scanStep_letter sec key n hc hl] at h
          exact ⟨.letter hl (ih hw' h).1, hhead⟩
        · cases hsp : isspace c with
          | true =>
              simp only [scanAfter, scanStep_blank sec key n hl hsp] at h
              exact ⟨.blank hl hsp (ih hw' h).1, hhead⟩
          | false =>
              exfalso
              by_cases hend : j ≠ 0 ∧ c = '='
              · obtain ⟨hj, rfl⟩ := hend
                exact hlost _ (scanStep_found sec key n hj hl) ⟨rfl, Or.inr (Or.inr rfl)⟩
              · by_cases hb : c = '['
                · subst hb
                  simp only [scanAfter, scanStep_section sec key n hl, reduceCtorEq] at h
                · have hk : j = 0 ∨ c ≠ '=' := by
                    by_cases hj : j = 0
                    · exact Or.inl hj
                    · exact Or.inr fun hc => hend ⟨hj, hc⟩
                  exact hlost _ (scanStep_miss sec key n hc hl hsp hk hb)
                    ⟨rfl, Or.inr (Or.inl rfl)⟩
      · obtain ⟨rfl, hstart⟩ := Classical.not_not.mp hc
        exact absurd ⟨rfl, Or.inl rfl⟩
          (hlost _ (scanStep_hash sec key n _ hstart rfl))

theorem matched_sublist {key : CString} {j k : Nat} {w : Text} (h : Matched key j w k)
    (hk : k ≤ key.text.length) :
    j ≤ k ∧ List.Sublist ((key.text.take k).drop j) w := by
  induction h with
  | nil => simp
  | @letter j w k c hc _ ih =>
      obtain ⟨hjk, hsub⟩ := ih hk
      have hj : j < key.text.length := by omega
      rw [CString.get_of_lt key hj] at hc
      refine ⟨by omega, ?_⟩
      have htake : j < (key.text.take k).length := by simp; omega
      rw [List.drop_eq_getElem_cons htake, List.getElem_take, ← hc]
      exact hsub.cons_cons c
  | blank _ _ _ ih =>
      obtain ⟨hjk, hsub⟩ := ih hk
      exact ⟨hjk, hsub.cons _⟩

/-- A full count on one line spells the key there, if nothing else is on the line. -/
theorem trim_eq_of_matched {key : CString} {w : Text} (hkey : trim key.text = key.text)
    (h : Matched key 0 w key.text.length)
    (hlen : (trim w).length = key.text.length) : trim w = key.text := by
  have hsub := (matched_sublist h (Nat.le_refl _)).2
  rw [List.take_length, List.drop_zero] at hsub
  have htrim := sublist_trim hsub
  rw [hkey] at htrim
  exact (htrim.eq_of_length hlen.symm).symm

theorem underHeader_snoc {sec t : Text} (h : UnderHeader sec t) : ∃ t', t = t' ++ ['\n'] := by
  obtain ⟨A, I, B, rfl, -⟩ := h
  exact ⟨A ++ I ++ '[' :: (sec ++ ']' :: B), by simp⟩

theorem underHeader_endsLine {sec t : Text} (h : UnderHeader sec t) : EndsLine t :=
  Or.inr (underHeader_snoc h)

theorem underHeader_lineStart {sec t : Text} (h : UnderHeader sec t) : LineStart t := by
  obtain ⟨t', rfl⟩ := underHeader_snoc h
  exact Or.inl (lastChar_snoc t' '\n')

theorem spelled_of_counts {sec key : CString} {t₁ w : Text} (hkey : trim key.text = key.text)
    (hline : LineStart t₁) (hw : '\n' ∉ w) (hstart : SeeksKey sec key t₁ (some 0))
    (hfull : SeeksKey sec key (t₁ ++ w) (some key.text.length))
    (hlen : (trim w).length = key.text.length) :
    w.head? ≠ some '#' ∧ trim w = key.text := by
  obtain ⟨k₀, hstart⟩ := seeksKey_scanAfter sec key 0 hstart
  obtain ⟨k₁, hfull⟩ := seeksKey_scanAfter sec key 0 hfull
  rw [scanAfter_append, hstart, Option.bind_some] at hfull
  obtain ⟨hmatched, hhead⟩ := scanAfter_matched hw hfull
  exact ⟨hhead hline, trim_eq_of_matched hkey hmatched hlen⟩

theorem keyLine_of_countsStraight {sec key : CString} {t : Text}
    (hkey : trim key.text = key.text) (h : CountsStraight sec key t) :
    KeyLine sec.text key.text t := by
  obtain ⟨t₁, w, rfl, hunder, hw, hstart, hfull, hlen⟩ := h
  have hspelled := spelled_of_counts hkey (underHeader_lineStart hunder) hw hstart hfull hlen
  exact ⟨t₁, w, rfl, hunder, hw, hspelled.1, hspelled.2⟩

/-- Outside comments, the bytes stored are those of the line, as far as there is room. -/
theorem readValue_buffer {n : Nat} {prev : Char} {buffer r : Text} (hprev : prev ≠ '\n')
    (hle : buffer.length ≤ n)
    (hcalm : ∀ u w, prev :: r = u ++ nul :: '#' :: w → '\n' ∉ u →
      n < buffer.length + u.length)
    (hend : '\n' ∈ r ∨ n ≤ buffer.length + r.length) :
    (readValue n prev false buffer r).buffer =
      buffer ++ (valuePart r).take (n - buffer.length) := by
  induction r generalizing prev buffer with
  | nil =>
      have hfull : ¬ buffer.length < n := by
        rcases hend with h | h
        · exact absurd h (by simp)
        · simpa using h
      simp [readValue, hfull, valuePart]
  | cons c r ih =>
      have hcom : ¬ (c == '#' && (prev == '\n' || prev == nul)) = true := by
        simp only [Bool.and_eq_true, Bool.or_eq_true, beq_iff_eq]
        rintro ⟨rfl, h | rfl⟩
        · exact hprev h
        · have hlt := hcalm [] r rfl (by simp)
          simp only [List.length_nil] at hlt
          omega
      by_cases hstore : buffer.length < n ∧ c ≠ '\n'
      · have hnl := hstore.2
        have hval : valuePart (c :: r) = c :: valuePart r := by
          simp [valuePart, hnl]
        have hsub : n - buffer.length = (n - (buffer ++ [c]).length) + 1 := by
          simp only [List.length_append, List.length_singleton]
          omega
        rw [readValue, if_neg hcom, if_pos hstore, ih hnl, hval, hsub, List.take_succ_cons,
          List.append_assoc, List.singleton_append]
        · simp only [List.length_append, List.length_singleton]
          omega
        · intro u w hu hnl'
          have hlt := hcalm (prev :: u) w (by rw [hu]; rfl) (by simp [hnl', Ne.symm hprev])
          simp only [List.length_append, List.length_cons, List.length_nil] at hlt ⊢
          omega
        · refine hend.imp (fun h => ?_) (fun h => ?_)
          · simpa [Ne.symm hnl] using h
          · simp only [List.length_append, List.length_cons, List.length_nil] at h ⊢
            omega
      · rw [readValue, if_neg hcom, if_neg hstore]
        by_cases hnl : c = '\n'
        · simp [valuePart, hnl]
        · have hsub : n - buffer.length = 0 := by
            have hfull : ¬ buffer.length < n := fun h => hstore ⟨h, hnl⟩
            omega
          simp [hsub]

theorem readValue_prefix {n : Nat} {r : Text} (h : ReadsToEnd n r) :
    (readValue n '=' false [] r).buffer <+: valuePart r := by
  rw [readValue_buffer (by decide) (Nat.zero_le _)]
  · exact List.take_prefix _ _
  · intro u w hu hnl
    cases u with
    | nil =>
        have hc := (List.cons.inj hu).1
        exact absurd hc (by decide)
    | cons c u =>
        have hle := h.1 u w (List.cons.inj hu).2 (fun h => hnl (List.mem_cons_of_mem _ h))
        simp only [List.length_nil, List.length_cons]
        omega
  · simpa using h.2

/-- Without a newline and without a full buffer, the byte of `EOF` is stored too. -/
theorem readValue_eof {n : Nat} {prev : Char} {buffer r : Text} (hprev : prev ≠ '\n')
    (hnul : nul ∉ prev :: r) (hnl : '\n' ∉ r) (hroom : buffer.length + r.length < n) :
    readValue n prev false buffer r =
      ⟨(buffer ++ r ++ [eofChar]).length, buffer ++ r ++ [eofChar], [], true⟩ := by
  induction r generalizing prev buffer with
  | nil =>
      have h : buffer.length < n := by simpa using hroom
      simp [readValue, h]
  | cons c r ih =>
      have hc : c ≠ '\n' := fun h => hnl (by simp [h])
      have hcom : ¬ (c == '#' && (prev == '\n' || prev == nul)) = true := by
        simp only [Bool.and_eq_true, Bool.or_eq_true, beq_iff_eq]
        rintro ⟨-, h | h⟩
        · exact hprev h
        · exact hnul (by simp [h])
      simp only [List.length_cons] at hroom
      have hstore : buffer.length < n ∧ c ≠ '\n' := ⟨by omega, hc⟩
      rw [readValue, if_neg hcom, if_pos hstore, ih hc]
      · simp [List.append_assoc]
      · exact fun h => hnul (List.mem_cons_of_mem _ h)
      · exact fun h => hnl (List.mem_cons_of_mem _ h)
      · simp only [List.length_append, List.length_singleton]
        omega

theorem readValue_ret (n : Nat) (prev : Char) (inComment : Bool) (buffer r : Text) :
    (readValue n prev inComment buffer r).ret =
        (readValue n prev inComment buffer r).buffer.length ∧
      buffer <+: (readValue n prev inComment buffer r).buffer := by
  induction r generalizing prev inComment buffer with
  | nil =>
      simp only [readValue]
      split <;> simp
  | cons c r ih =>
      cases inComment with
      | true =>
          simp only [readValue]
          exact ih _ _ _
      | false =>
          simp only [readValue]
          split
          · exact ih _ _ _
          · split
            · have h := ih c false (buffer ++ [c])
              exact ⟨h.1, (List.prefix_append _ _).trans h.2⟩
            · simp

theorem equals_guard (c : Char) : ¬ (c == '#' && ('=' == '\n' || '=' == nul)) = true := by
  have h : ('=' == '\n' || '=' == nul) = false := by decide
  rw [h, Bool.and_false]
  exact Bool.false_ne_true

/-- The answer is positive where a byte of the value is stored. -/
theorem readValue_pos_iff (n : Nat) (r : Text) :
    0 < (readValue n '=' false [] r).ret ↔ n ≠ 0 ∧ r.head? ≠ some '\n' := by
  cases r with
  | nil =>
      simp only [readValue, List.length_nil, true_and, List.head?_nil]
      split <;> simp <;> omega
  | cons c r =>
      rw [readValue, if_neg (equals_guard c)]
      by_cases hstore : ([] : Text).length < n ∧ c ≠ '\n'
      · obtain ⟨hret, hpre⟩ := readValue_ret n c false ([] ++ [c]) r
        have hlen := hpre.length_le
        rw [if_pos hstore, hret]
        have hc : (c :: r).head? ≠ some '\n' := fun h => hstore.2 (Option.some.inj h)
        refine iff_of_true ?_ ⟨Nat.ne_of_gt hstore.1, hc⟩
        exact Int.natCast_pos.mpr hlen
      · rw [if_neg hstore]
        refine iff_of_false (by simp) fun h => hstore ⟨Nat.pos_of_ne_zero h.1, fun hc => ?_⟩
        exact h.2 (by simp [hc])

theorem answersExactly_of_stopsStraight {sec key : CString} {text : Text} {n : Nat}
    (hkey : trim key.text = key.text) (h : StopsStraight sec key text n) :
    AnswersExactly sec key text (scanLoop sec key n Scan.initial text) := by
  intro hpos
  cases lookup_cases sec key text with
  | value t r htext ht =>
      subst htext
      rw [takesKey_scanLoop sec key n ht] at hpos ⊢
      obtain ⟨hn, hr⟩ := (readValue_pos_iff n r).mp hpos
      obtain ⟨hcounts, hreads⟩ := h t r rfl ht hn hr
      exact ⟨t, r, rfl, ht, keyLine_of_countsStraight hkey hcounts, readValue_prefix hreads⟩
  | «section» t r htext ht =>
      subst htext
      rw [meetsSection_scanLoop sec key n ht] at hpos
      exact absurd hpos (by simp)
  | exhausted ht =>
      rw [exhausted_scanLoop sec key n ht] at hpos
      exact absurd hpos (by simp)

theorem inSection_step {sec key : CString} {n : Nat} {s s' : Scan} {c : Char}
    (h : s.inSection = true) (hstep : scanStep sec key n s c = .next s') :
    s'.inSection = true := by
  simp only [scanStep, h, Bool.not_true, Bool.false_eq_true, ite_false, scanKey,
    scanValue] at hstep
  repeat' split at hstep
  all_goals first
    | (cases hstep; rfl)
    | cases hstep

theorem inSection_scanAfter {sec key : CString} {n : Nat} {s s' : Scan} {w : Text}
    (h : s.inSection = true) (hafter : scanAfter sec key n s w = some s') :
    s'.inSection = true :=
  scanAfter_preserves (fun s => s.inSection = true)
    (fun _ _ _ _ hs hstep => inSection_step hs hstep) h hafter

theorem seeksKey_count {sec key : CString} {t : Text} {m : Option Nat}
    (h : SeeksKey sec key t m) (hnul : nul ∉ t) : ∀ j, m = some j → j ≤ key.text.length := by
  induction h with
  | start _ => simp
  | hidden _ _ ih => exact ih fun h => hnul (by simp [h])
  | @letter t k c _ _ hc ih =>
      intro j hj
      have hk := ih (fun h => hnul (by simp [h])) k rfl
      have hne : k ≠ key.text.length := by
        rintro rfl
        exact hnul (by simp [hc, CString.get])
      cases hj
      omega
  | blank _ _ _ ih => exact ih fun h => hnul (by simp [h])
  | miss | passed => simp
  | newline => simp

/-- The letters counted on a line are those written on it. -/
theorem matched_inked {key : CString} {j k : Nat} {w : Text} (h : Matched key j w k)
    (hnul : nul ∉ w) (hj : j ≤ key.text.length) :
    k ≤ key.text.length ∧ inked (key.text.take j) + inked w = inked (key.text.take k) := by
  induction h with
  | nil => exact ⟨hj, rfl⟩
  | @letter j w k c hc _ ih =>
      have hlt : j < key.text.length := by
        refine Nat.lt_of_le_of_ne hj ?_
        rintro rfl
        exact hnul (by simp [hc, CString.get])
      obtain ⟨hk, hsum⟩ := ih (fun h => hnul (List.mem_cons_of_mem _ h)) hlt
      refine ⟨hk, ?_⟩
      rw [CString.get_of_lt key hlt] at hc
      have hcons : inked (c :: w) = inked [c] + inked w := inked_append [c] w
      rw [← hsum, List.take_succ_eq_append_getElem hlt, inked_append, hcons, hc]
      omega
  | @blank j w k c _ hsp _ ih =>
      obtain ⟨hk, hsum⟩ := ih (fun h => hnul (List.mem_cons_of_mem _ h)) hj
      refine ⟨hk, ?_⟩
      have hcons : inked (c :: w) = inked w := by simp [inked, hsp]
      rw [hcons, hsum]

/-- An open bracket is followed by the letters counted, on its own line. -/
theorem seeksHeader_shape {sec : CString} {t : Text} {m : Option Nat}
    (h : SeeksHeader sec t m) (hnul : nul ∉ t) (hnl : '\n' ∉ sec.text) :
    ∀ k, m = some k → k ≤ sec.text.length ∧ ∃ h, t = h ++ '[' :: sec.text.take k := by
  induction h with
  | start | other | abandoned => simp
  | @hidden t u m _ hu ih =>
      intro k hk
      obtain ⟨-, h, ht⟩ := ih (fun h => hnul (by simp [h])) k hk
      have hmem := lastChar_mem h (List.cons_ne_nil '[' (sec.text.take k))
      rw [← ht] at hmem
      rcases hu.1 with hlast | hlast
      · rw [hlast] at hmem
        have : '\n' ∈ sec.text.take k := by simpa using hmem
        exact absurd (List.mem_of_mem_take this) hnl
      · rw [hlast] at hmem
        have hin : nul ∈ t := by
          rw [ht]
          exact List.mem_append_right _ hmem
        exact absurd (List.mem_append_left u hin) hnul
  | @opened t _ _ =>
      intro k hk
      cases hk
      exact ⟨Nat.zero_le _, t, by simp⟩
  | @letter t k c _ _ hc ih =>
      intro k' hk'
      obtain ⟨hk, h, ht⟩ := ih (fun h => hnul (by simp [h])) k rfl
      have hlt : k < sec.text.length := by
        refine Nat.lt_of_le_of_ne hk ?_
        rintro rfl
        exact hnul (by simp [hc, CString.get])
      cases hk'
      rw [CString.get_of_lt sec hlt] at hc
      refine ⟨hlt, h, ?_⟩
      rw [List.take_succ_eq_append_getElem hlt, ht, hc]
      simp

theorem seeksHeader_blank {sec : CString} {t I : Text} (h : SeeksHeader sec t none)
    (hI : Blank I) : SeeksHeader sec (t ++ I) none := by
  induction I generalizing t with
  | nil => rwa [List.append_nil]
  | cons c I ih =>
      have hsp := (hI c List.mem_cons_self).1
      have hhash : c ≠ '#' := fun h => by rw [h] at hsp; exact absurd hsp (by decide)
      have hopen : c ≠ '[' := fun h => by rw [h] at hsp; exact absurd hsp (by decide)
      rw [List.append_cons]
      exact ih (.other h (shown_of_ne hhash) hopen) fun d hd => hI d (List.mem_cons_of_mem _ hd)

theorem seeksHeader_letters {sec : CString} {t p u : Text} (hnl : '\n' ∉ sec.text)
    (hsec : sec.text = p ++ u) (h : SeeksHeader sec (t ++ '[' :: p) (some p.length)) :
    SeeksHeader sec (t ++ '[' :: sec.text) (some sec.text.length) := by
  induction u generalizing p with
  | nil =>
      rw [List.append_nil] at hsec
      rwa [hsec]
  | cons c u ih =>
      have hget : c = sec.get p.length := by
        simp [CString.get, hsec]
      have hshown : Shown (t ++ '[' :: p) c := by
        rintro ⟨-, hstart⟩
        have hmem := lastChar_mem t (List.cons_ne_nil '[' p)
        have hin : ∀ d, d ≠ '[' → d ∈ '[' :: p → d ∈ sec.text := by
          intro d hd hmem
          rw [hsec]
          exact List.mem_append_left _ ((List.mem_cons.mp hmem).resolve_left hd)
        rcases hstart with h | h
        · exact hnl (hin _ (by decide) (h ▸ hmem))
        · exact sec.terminated (hin _ (by decide) (h ▸ hmem))
      have hnext := SeeksHeader.letter h hshown hget
      refine ih (p := p ++ [c]) (by simp [hsec]) ?_
      simpa using hnext

/-- A header line in full is taken where no header was taken before it. -/
theorem takesHeader_of_line {sec : CString} {A I : Text} {m : Option Nat}
    (hsec : sec.text ≠ []) (hnul : nul ∉ A) (hnl : '\n' ∉ sec.text) (hA : EndsLine A)
    (hI : Blank I) (h : SeeksHeader sec A m) :
    TakesHeader sec (A ++ I ++ '[' :: sec.text) := by
  have hm : m = none := by
    cases m with
    | none => rfl
    | some k =>
        obtain ⟨-, A', hshape⟩ := seeksHeader_shape h hnul hnl k rfl
        have hmem := lastChar_mem A' (List.cons_ne_nil '[' (sec.text.take k))
        rw [← hshape] at hmem
        rcases hA with rfl | ⟨A'', rfl⟩
        · simp at hshape
        · rw [lastChar_snoc] at hmem
          have hin : '\n' ∈ sec.text.take k := by simpa using hmem
          exact absurd (List.mem_of_mem_take hin) hnl
  subst hm
  have hopen := SeeksHeader.opened (seeksHeader_blank h hI)
  refine ⟨sec.text.length, ?_, ?_, seeksHeader_letters (p := []) hnl rfl hopen⟩
  · simpa using hsec
  · have hget : sec.get sec.text.length = nul := by simp [CString.get]
    rw [hget]
    decide

/-- Below a header line in full, the header is taken. -/
theorem seeksKey_of_underHeader {sec key : CString} {t w : Text} {s : Scan}
    (hsec : sec.text ≠ []) (hnul : nul ∉ t) (hunder : UnderHeader sec.text t)
    (h : scanAfter sec key 0 Scan.initial (t ++ w) = some s) (hfound : s.foundKey = false) :
    ∃ m, SeeksKey sec key t m := by
  have hseek := seeking_prefix h hfound (underHeader_endsLine hunder)
  refine hseek.resolve_left ?_
  rintro ⟨m, hheader⟩
  have hstate := seeksHeader_scanAfter sec key 0 hheader
  obtain ⟨A, I, B, rfl, hA, hI, hnl, -⟩ := hunder
  have hnulA : nul ∉ A := fun h => hnul (by simp [h])
  have hsection : (headerState (A ++ (I ++ '[' :: (sec.text ++ ']' :: (B ++ ['\n'])))) m).inSection
      = true := by
    rcases seeking_prefix hstate rfl hA with ⟨m', hm'⟩ | ⟨m', hm'⟩
    · have htake := takesHeader_of_line hsec hnulA hnl hA hI hm'
      have hassoc : A ++ (I ++ '[' :: (sec.text ++ ']' :: (B ++ ['\n']))) =
          (A ++ I ++ '[' :: sec.text ++ [']']) ++ (B ++ ['\n']) := by simp
      rw [hassoc, scanAfter_append, takesHeader_scanAfter sec key 0 htake,
        Option.bind_some, ← hassoc] at hstate
      exact inSection_scanAfter rfl hstate
    · obtain ⟨k, hk⟩ := seeksKey_scanAfter sec key 0 hm'
      rw [scanAfter_append, hk, Option.bind_some] at hstate
      exact inSection_scanAfter rfl hstate
  exact absurd hsection (by simp [headerState, Scan.initial])

/-- A full count needs the whole line: none of its letters was counted before. -/
theorem count_of_trim {key : CString} {j k : Nat} {w : Text} (hkey : trim key.text = key.text)
    (hne : key.text ≠ []) (hnul : nul ∉ w) (hj : j ≤ key.text.length)
    (hw : trim w = key.text) (h : Matched key j w k) : j = 0 ∧ k = key.text.length := by
  obtain ⟨hk, hsum⟩ := matched_inked h hnul hj
  have hinked : inked w = inked key.text := by rw [← inked_trim, hw]
  have hsplit : ∀ i, inked (key.text.take i) + inked (key.text.drop i) = inked key.text := by
    intro i
    rw [← inked_append, List.take_append_drop]
  have hjk := hsplit k
  have hzero : inked (key.text.take j) = 0 := by omega
  have hrest : inked (key.text.drop k) = 0 := by omega
  constructor
  · by_contra hj0
    cases hcons : key.text with
    | nil => exact hne hcons
    | cons c t =>
        obtain ⟨j', rfl⟩ := Nat.exists_eq_succ_of_ne_zero hj0
        have hc := trimmed_head hkey hcons
        rw [hcons, List.take_succ_cons] at hzero
        simp [inked, hc] at hzero
  · by_contra hk'
    have hdrop : key.text.drop k ≠ [] := by
      simp only [ne_eq, List.drop_eq_nil_iff]
      omega
    obtain ⟨u, c, hu⟩ := (List.eq_nil_or_concat (key.text.drop k)).resolve_left hdrop
    rw [List.concat_eq_append] at hu
    have hc : isspace c = false := by
      refine trimmed_last (c := c) hkey (?_ : _ = (key.text.take k ++ u) ++ [c])
      rw [List.append_assoc, ← hu, List.take_append_drop]
    rw [hu] at hrest
    simp [inked, hc] at hrest

theorem countsStraight_of_keyLine {sec key : CString} {t : Text} (hsec : sec.text ≠ [])
    (hkey : trim key.text = key.text) (hne : key.text ≠ []) (hnul : nul ∉ t)
    (htake : TakesKey sec key t) (h : KeyLine sec.text key.text t) :
    CountsStraight sec key t := by
  obtain ⟨k, -, -, hseek⟩ := htake
  obtain ⟨t₁, K, rfl, hunder, hK, -, htrim⟩ := h
  have hnul₁ : nul ∉ t₁ := fun h => hnul (by simp [h])
  have hnulK : nul ∉ K := fun h => hnul (by simp [h])
  obtain ⟨k₁, hafter⟩ := seeksKey_scanAfter sec key 0 hseek
  obtain ⟨m, hm⟩ := seeksKey_of_underHeader hsec hnul₁ hunder hafter rfl
  obtain ⟨k₀, hm'⟩ := seeksKey_scanAfter sec key 0 hm
  rw [scanAfter_append, hm', Option.bind_some] at hafter
  cases m with
  | none =>
      have hsettled : Settled (keyState t₁ none k₀) := ⟨rfl, Or.inr (Or.inl rfl)⟩
      exact absurd (settled_scanAfter hsettled hK hafter) (not_settled_keyState _ _ _)
  | some j =>
      obtain ⟨hmatched, -⟩ := scanAfter_matched hK hafter
      have hj := seeksKey_count hm hnul₁ j rfl
      obtain ⟨rfl, rfl⟩ := count_of_trim hkey hne hnulK hj htrim hmatched
      exact ⟨t₁, K, rfl, hunder, hK, hm, hseek, by rw [htrim]⟩

theorem readsToEnd_of_prefix {n : Nat} {r : Text} (hnul : nul ∉ r)
    (h : (readValue n '=' false [] r).buffer <+: valuePart r) : ReadsToEnd n r := by
  constructor
  · rintro u w rfl
    exact absurd (by simp) hnul
  · by_contra hend
    rw [not_or, Nat.not_le] at hend
    obtain ⟨hnl, hlt⟩ := hend
    have hnul' : nul ∉ '=' :: r := by
      rw [List.mem_cons, not_or]
      exact ⟨by decide, hnul⟩
    rw [readValue_eof (by decide) hnul' hnl (by simpa using hlt)] at h
    have hle := h.length_le
    have htake : (valuePart r).length ≤ r.length := (List.takeWhile_prefix _).length_le
    simp only [List.nil_append, List.length_append, List.length_singleton] at hle
    omega

/-- Whatever the file holds: an answer is exact if the counters run straight where the
reader stops, and only then unless a NUL byte led it behind the end of a name. -/
theorem iniparserGetStringAtPosition_exact (file : Text) (sec key : CString)
    (position : Int) (bufferlen : Nat) (hsec : sec.text ≠ []) (hkey : key.text ≠ [])
    (hblank : trim key.text = key.text) :
    (StopsStraight sec key (fseek file position) bufferlen →
      AnswersExactly sec key (fseek file position)
        (iniparserGetStringAtPosition file sec key position bufferlen)) ∧
    (nul ∉ file →
      AnswersExactly sec key (fseek file position)
        (iniparserGetStringAtPosition file sec key position bufferlen) →
      StopsStraight sec key (fseek file position) bufferlen) := by
  refine ⟨answersExactly_of_stopsStraight hblank, fun hnul h t r htext htake hn hr => ?_⟩
  have hnul' : nul ∉ t ++ '=' :: r := by
    rw [← htext, fseek]
    split
    · exact hnul
    · exact fun h => hnul (List.mem_of_mem_drop h)
  rw [iniparserGetStringAtPosition, htext] at h
  have hscan := takesKey_scanLoop sec key bufferlen htake r
  obtain ⟨t', r', hsplit, htake', hline, hvalue⟩ := h (by
    rw [hscan]
    exact (readValue_pos_iff bufferlen r).mpr ⟨hn, hr⟩)
  obtain rfl := takesKey_unique htake htake' hsplit
  obtain rfl := (List.cons.inj (List.append_cancel_left hsplit)).2
  rw [hscan] at hvalue
  have hnul₁ : nul ∉ t := fun h => hnul' (by simp [h])
  have hnul₂ : nul ∉ r := fun h => hnul' (by simp [h])
  exact ⟨countsStraight_of_keyLine hsec hblank hkey hnul₁ htake hline,
    readsToEnd_of_prefix hnul₂ hvalue⟩

def quoted (s : String) : CString := cstring (fun _ _ => nul) s.toList

theorem iniparserGetStringAtPosition_exact_sample :
    (StopsStraight (quoted "DEFAULT") (quoted "relax_home_group")
        (fseek "[DEFAULT]\nrelax_home_group=1\n".toList 0) 25 →
      AnswersExactly (quoted "DEFAULT") (quoted "relax_home_group")
        (fseek "[DEFAULT]\nrelax_home_group=1\n".toList 0)
        (iniparserGetStringAtPosition "[DEFAULT]\nrelax_home_group=1\n".toList
          (quoted "DEFAULT") (quoted "relax_home_group") 0 25)) ∧
    (nul ∉ "[DEFAULT]\nrelax_home_group=1\n".toList →
      AnswersExactly (quoted "DEFAULT") (quoted "relax_home_group")
        (fseek "[DEFAULT]\nrelax_home_group=1\n".toList 0)
        (iniparserGetStringAtPosition "[DEFAULT]\nrelax_home_group=1\n".toList
          (quoted "DEFAULT") (quoted "relax_home_group") 0 25) →
      StopsStraight (quoted "DEFAULT") (quoted "relax_home_group")
        (fseek "[DEFAULT]\nrelax_home_group=1\n".toList 0) 25) :=
  iniparserGetStringAtPosition_exact "[DEFAULT]\nrelax_home_group=1\n".toList
    (quoted "DEFAULT") (quoted "relax_home_group") 0 25 (by decide) (by decide) (by decide)

/-- The line for one option answers for another whose name it begins. -/
theorem iniparserGetStringAtPosition_prefix_key :
    iniparserGetStringAtPosition "[DEFAULT]\nrelax_home_group=1\n".toList
        (quoted "DEFAULT") (quoted "relax_home_group_permissions") 0 25 =
      ⟨1, "1".toList, [], false⟩ ∧
    ¬ AnswersExactly (quoted "DEFAULT") (quoted "relax_home_group_permissions")
        (fseek "[DEFAULT]\nrelax_home_group=1\n".toList 0)
        (iniparserGetStringAtPosition "[DEFAULT]\nrelax_home_group=1\n".toList
          (quoted "DEFAULT") (quoted "relax_home_group_permissions") 0 25) := by
  have hanswer : iniparserGetStringAtPosition "[DEFAULT]\nrelax_home_group=1\n".toList
      (quoted "DEFAULT") (quoted "relax_home_group_permissions") 0 25 =
        ⟨1, "1".toList, [], false⟩ := by decide
  refine ⟨hanswer, fun h => ?_⟩
  rw [hanswer] at h
  obtain ⟨t, r, htext, -, ⟨t₁, K, rfl, -, -, -, hK⟩, hvalue⟩ := h (by decide)
  -- the wanted key is longer than all of the text before the value
  have hlen := congrArg List.length htext
  have hkey := length_trim_le K
  have hr := hvalue.length_le
  have hr' : (valuePart r).length ≤ r.length := (List.takeWhile_prefix _).length_le
  have h₁ : (fseek "[DEFAULT]\nrelax_home_group=1\n".toList 0).length = 29 := by decide
  have h₂ : (quoted "relax_home_group_permissions").text.length = 28 := by decide
  have h₃ : "1".toList.length = 1 := by decide
  rw [hK] at hkey
  simp only [List.length_append, List.length_cons] at hlen hr hkey
  omega

end Jailkit.Ini
