import Jailkit.Ini.HeaderSearch

/-!
A comment line more or less changes nothing for either scanner: it begins where both have
just read a newline, or nothing, and leaves both as they were.
-/
namespace Jailkit.Ini

/-- The section is found in both files or in neither, and a lookup at the position behind it
gives the same value and the same text. -/
def SameAnswers (file file' : Text) (sec : CString) : Prop :=
  match iniparserHasSection file sec, iniparserHasSection file' sec with
  | none, none => True
  | some unread, some unread' => ∀ key bufferlen,
      let a := iniparserGetStringAtPosition file sec key
        (file.length - unread.length - sec.text.length - 2) bufferlen
      let a' := iniparserGetStringAtPosition file' sec key
        (file'.length - unread'.length - sec.text.length - 2) bufferlen
      a.ret = a'.ret ∧ a.buffer = a'.buffer
  | _, _ => False

def commentLine (t : Text) : Text := '#' :: (t ++ ['\n'])

section

variable {sec key : CString} {n : Nat} {name before after t w u : Text} {s : NextScan}

/-- At a newline both a comment and its line are over. -/
theorem searchStep_newline (s : NextScan) :
    (searchStep s '\n').prevch = '\n' ∧ (searchStep s '\n').inComment = false := by
  cases hs : s.inComment with
  | true => simp [searchStep, nextStep_inComment s _ hs]
  | false =>
      cases hopen : s.sectionStart with
      | true => simp [searchStep, nextStep, hs, hopen]
      | false => simp [searchStep, nextStep, hs, hopen]

/-- The search reads text in two parts. -/
theorem hasSectionLoop_append :
    hasSectionLoop name s (u ++ w) =
      match hasSectionLoop name s u with
      | some unread => some (unread ++ w)
      | none => hasSectionLoop name (searchAfter s u) w := by
  induction u generalizing s with
  | nil => rfl
  | cons c u ih =>
      simp only [List.cons_append, hasSectionLoop, searchAfter, List.foldl_cons]
      cases hnext : nextStep s c with
      | next s' =>
          rw [searchStep, hnext]
          exact ih
      | found name' =>
          rw [searchStep, hnext]
          by_cases hname : cText name' = name
          · simp only [if_pos hname]
          · simp only [if_neg hname]
            exact ih

/-- Whether a newline was read or nothing at all makes no difference. -/
theorem hasSectionLoop_prevch (hs : s.prevch = nul) :
    hasSectionLoop name { s with prevch := '\n' } w = hasSectionLoop name s w := by
  cases w with
  | nil => rfl
  | cons c w =>
      have hstep : nextStep { s with prevch := '\n' } c = nextStep s c := by
        simp [nextStep, hs]
      simp only [hasSectionLoop, hstep]

theorem hasSectionLoop_inComment (hs : s.inComment = true) (ht : '\n' ∉ t) :
    hasSectionLoop name s (t ++ '\n' :: w) =
      hasSectionLoop name { s with inComment := false, prevch := '\n' } w := by
  induction t generalizing s with
  | nil => simp [hasSectionLoop, nextStep_inComment s _ hs]
  | cons c t ih =>
      have hc : (c != '\n') = true := by simpa using fun h => ht (by simp [h])
      simp only [List.cons_append, hasSectionLoop, nextStep_inComment s c hs, hc]
      exact ih rfl fun h => ht (List.mem_cons_of_mem c h)

/-- The search goes on behind the comment as in front of it. -/
theorem hasSectionLoop_commentLine (hs : s.inComment = false)
    (hprev : s.prevch = '\n' ∨ s.prevch = nul) (ht : '\n' ∉ t) :
    hasSectionLoop name s (commentLine t ++ w) = hasSectionLoop name s w := by
  have hstart : nextStep s '#' = .next { s with inComment := true, prevch := '#' } := by
    cases hprev with
    | inl h => simp [nextStep, h]
    | inr h => simp [nextStep, h]
  have hline : commentLine t ++ w = '#' :: (t ++ '\n' :: w) := by simp [commentLine]
  have hopen : { s with inComment := true, prevch := '#' }.inComment = true := rfl
  rw [hline, hasSectionLoop, hstart]
  refine (hasSectionLoop_inComment hopen ht).trans ?_
  cases s with
  | mk buf sectionStart inComment prevch =>
      cases hs
      cases hprev with
      | inl h =>
          cases h
          rfl
      | inr h =>
          cases h
          exact @hasSectionLoop_prevch name w ⟨buf, sectionStart, false, nul⟩ rfl

/-- Either the name stands in front of the comment, or it is sought behind it. -/
theorem iniparserHasSection_commentLine (hbefore : EndsLine before) (ht : '\n' ∉ t) :
    iniparserHasSection (before ++ (commentLine t ++ after)) sec =
      match hasSectionLoop sec.text NextScan.initial before with
      | some unread => some (unread ++ (commentLine t ++ after))
      | none => hasSectionLoop sec.text (searchAfter NextScan.initial before) after := by
  rw [iniparserHasSection, hasSectionLoop_append]
  cases hasSectionLoop sec.text NextScan.initial before with
  | some unread => rfl
  | none =>
      have hstate : (searchAfter NextScan.initial before).inComment = false ∧
          ((searchAfter NextScan.initial before).prevch = '\n' ∨
            (searchAfter NextScan.initial before).prevch = nul) := by
        cases hbefore with
        | inl hnil =>
            rw [hnil]
            exact ⟨rfl, Or.inr rfl⟩
        | inr hline =>
            obtain ⟨b, hb⟩ := hline
            obtain ⟨hprev, hcom⟩ := searchStep_newline (searchAfter NextScan.initial b)
            rw [hb, searchAfter_snoc rfl]
            exact ⟨hcom, Or.inl hprev⟩
      exact hasSectionLoop_commentLine hstate.1 hstate.2 ht

theorem iniparserHasSection_append :
    iniparserHasSection (before ++ after) sec =
      match hasSectionLoop sec.text NextScan.initial before with
      | some unread => some (unread ++ after)
      | none => hasSectionLoop sec.text (searchAfter NextScan.initial before) after :=
  hasSectionLoop_append

/-- A lookup that reads a newline has returned, or is at the start of a line. -/
theorem scanStep_newline {s s' : Scan} (h : scanStep sec key n s '\n' = .next s') :
    s'.ch = '\n' ∧ s'.inComment = false := by
  cases hcom : s.inComment with
  | true =>
      rw [scanStep_inComment sec key n s _ hcom] at h
      cases h
      exact ⟨rfl, rfl⟩
  | false =>
      have hhash : ('\n' == '#') = false := by decide
      simp only [scanStep, hcom, hhash, Bool.false_and, Bool.false_eq_true, if_false] at h
      split at h
      · cases h
        have hkeeps := scanHeader_keeps sec { s with ch := '\n', inComment := false } '\n'
        exact ⟨hkeeps.1, hkeeps.2.1⟩
      · split at h
        · simp only [beq_self_eq_true, if_true] at h
          cases h
          exact ⟨rfl, rfl⟩
        · split at h
          · exact ⟨(scanKey_keeps h).1, (scanKey_keeps h).2.1⟩
          · simp [scanValue] at h

theorem scanAfter_commentLine {s : Scan} (hch : s.ch = '\n') (hs : s.inComment = false)
    (ht : '\n' ∉ t) : scanAfter sec key n s (commentLine t) = some s := by
  have hhidden := scanAfter_hidden sec key n s ['\n'] (commentLine t)
    ⟨Or.inl rfl, t, rfl, ht⟩ hch hs
  rw [hhidden, ← hch]

/-- A lookup that has returned has not read what follows. -/
theorem scanLoop_returned {s : Scan} (h : scanAfter sec key n s u = none) (w w' : Text) :
    (scanLoop sec key n s (u ++ w)).ret = (scanLoop sec key n s (u ++ w')).ret ∧
      (scanLoop sec key n s (u ++ w)).buffer = (scanLoop sec key n s (u ++ w')).buffer := by
  induction u generalizing s with
  | nil => cases h
  | cons c u ih =>
      simp only [List.cons_append, scanLoop]
      rw [scanAfter] at h
      cases hstep : scanStep sec key n s c with
      | next s' =>
          rw [hstep] at h
          exact ih h
      | ret value buffer => exact ⟨rfl, rfl⟩

theorem scanLoop_commentLine (ht : '\n' ∉ t) (u w : Text) :
    (scanLoop sec key n Scan.initial (u ++ '\n' :: w)).ret =
        (scanLoop sec key n Scan.initial (u ++ '\n' :: (commentLine t ++ w))).ret ∧
      (scanLoop sec key n Scan.initial (u ++ '\n' :: w)).buffer =
        (scanLoop sec key n Scan.initial (u ++ '\n' :: (commentLine t ++ w))).buffer := by
  rw [List.append_cons, List.append_cons u '\n' (commentLine t ++ w)]
  cases hafter : scanAfter sec key n Scan.initial (u ++ ['\n']) with
  | none => exact scanLoop_returned hafter w (commentLine t ++ w)
  | some s =>
      have hstate : s.ch = '\n' ∧ s.inComment = false := by
        rw [scanAfter_append] at hafter
        obtain ⟨s₀, -, hlast⟩ := Option.bind_eq_some_iff.mp hafter
        rw [scanAfter] at hlast
        cases hstep : scanStep sec key n s₀ '\n' with
        | next s' =>
            rw [hstep] at hlast
            cases hlast
            exact scanStep_newline hstep
        | ret value buffer =>
            rw [hstep] at hlast
            cases hlast
      have hcomment : scanAfter sec key n s (commentLine t) = some s :=
        scanAfter_commentLine hstate.1 hstate.2 ht
      rw [scanLoop_scanAfter hafter, scanLoop_scanAfter hafter, scanLoop_scanAfter hcomment]
      exact ⟨rfl, rfl⟩

/-- The callers go back to the byte in front of the name, which is the bracket or, where empty
brackets stand in front of it, the last of these. -/
theorem fseek_name {file unread : Text} (hnul : nul ∉ file) (hsec : OneLine sec.text)
    (hfound : iniparserHasSection file sec = some unread) :
    ∃ p c, file = p ++ c :: (sec.text ++ ']' :: unread) ∧ c ≠ '\n' := by
  have hspec := iniparserHasSection_spec hnul hsec.nonempty
  rw [hfound] at hspec
  obtain ⟨v, rfl, hcloses, -⟩ := hspec
  have hnulv : nul ∉ v := fun h => hnul (List.mem_append_left _ h)
  obtain ⟨p, k, rfl, -⟩ := (closes_iff hsec hnulv).mp hcloses
  cases k with
  | zero => exact ⟨p, '[', by simp, by decide⟩
  | succ k =>
      exact ⟨p ++ '[' :: List.replicate k ']', ']', by simp [List.replicate_succ'], by decide⟩

theorem fseek_append {file p r : Text} (hfile : file = p ++ r) {position : Int}
    (hposition : position = p.length) : fseek file position = r := by
  rw [fseek, if_neg (by omega), hposition, Int.toNat_natCast, hfile, List.drop_left]

/-- The position from which a lookup begins, as a place in the file. -/
theorem position_eq {file p unread : Text} {c : Char}
    (hfile : file = p ++ c :: (name ++ ']' :: unread)) :
    (file.length - unread.length - name.length - 2 : Int) = p.length := by
  rw [hfile]
  simp only [List.length_append, List.length_cons]
  omega

/-- What stands at the end of a line cannot be a name in brackets. -/
theorem endsLine_behind {p r : Text} (hp : EndsLine (p ++ r)) (hr : '\n' ∉ r) : r = [] := by
  by_contra hne
  have hmem := lastChar_mem p hne
  obtain ⟨b, hb⟩ := hp.resolve_left (by simp [hne])
  rw [hb, lastChar_snoc] at hmem
  exact hr hmem

/-- A name found in front of the comment: both lookups come to the comment from one place. -/
theorem sameAnswers_before {unread : Text} (hsec : OneLine sec.text) (hnul : nul ∉ before)
    (hbefore : EndsLine before) (ht : '\n' ∉ t)
    (hfound : hasSectionLoop sec.text NextScan.initial before = some unread) :
    SameAnswers (before ++ after) (before ++ (commentLine t ++ after)) sec := by
  obtain ⟨p, c, hsplit, -⟩ := @fseek_name sec before unread hnul hsec hfound
  have hunread : ∃ u, unread = u ++ ['\n'] := by
    have hne : before ≠ [] := by simp [hsplit]
    obtain ⟨b, hb⟩ := hbefore.resolve_left hne
    cases List.eq_nil_or_concat unread with
    | inl hnil =>
        have hlast := congrArg lastChar (hsplit.symm.trans hb)
        rw [hnil, lastChar_snoc, ← List.cons_append, ← List.append_assoc, lastChar_snoc] at hlast
        exact absurd hlast (by decide)
    | inr hconcat =>
        obtain ⟨u, d, hu⟩ := hconcat
        have hlast := congrArg lastChar (hsplit.symm.trans hb)
        rw [hu, List.concat_eq_append, lastChar_snoc, ← List.cons_append, ← List.append_assoc,
          ← List.cons_append, ← List.append_assoc, lastChar_snoc] at hlast
        exact ⟨u, by rw [hu, List.concat_eq_append, hlast]⟩
  obtain ⟨u, rfl⟩ := hunread
  have hhas := @iniparserHasSection_append sec before after
  have hhas' := @iniparserHasSection_commentLine sec before after t hbefore ht
  rw [hfound] at hhas hhas'
  have hfile : before ++ after = p ++ c :: (sec.text ++ ']' :: (u ++ ['\n'] ++ after)) := by
    rw [hsplit]
    simp
  have hfile' : before ++ (commentLine t ++ after) =
      p ++ c :: (sec.text ++ ']' :: (u ++ ['\n'] ++ (commentLine t ++ after))) := by
    rw [hsplit]
    simp
  rw [SameAnswers, hhas, hhas']
  intro key n
  simp only [iniparserGetStringAtPosition, fseek_append hfile (position_eq hfile),
    fseek_append hfile' (position_eq hfile')]
  have hsame := @scanLoop_commentLine sec key n t ht (c :: (sec.text ++ ']' :: u)) after
  simpa using hsame

/-- A name found behind the comment: both lookups begin there. -/
theorem sameAnswers_behind (hsec : OneLine sec.text) (hnul : nul ∉ before ++ after)
    (hbefore : EndsLine before) (ht : '\n' ∉ t)
    (hnone : hasSectionLoop sec.text NextScan.initial before = none) :
    SameAnswers (before ++ after) (before ++ (commentLine t ++ after)) sec := by
  have hhas := @iniparserHasSection_append sec before after
  have hhas' := @iniparserHasSection_commentLine sec before after t hbefore ht
  rw [hnone] at hhas hhas'
  simp only at hhas hhas'
  rw [SameAnswers, hhas, hhas']
  cases hfound : hasSectionLoop sec.text (searchAfter NextScan.initial before) after with
  | none => trivial
  | some unread =>
      intro key n
      have hspec := hasSectionLoop_spec sec.text (searchAfter NextScan.initial before) after
      rw [hfound] at hspec hhas
      obtain ⟨v, d, hafter, ⟨name', hstep, -⟩, -⟩ := hspec
      obtain ⟨hd, -⟩ := nextStep_found hstep
      obtain ⟨p, c, hsplit, hc⟩ := fseek_name hnul hsec hhas
      have hcut : before ++ v = p ++ c :: sec.text := by
        have hwhole : (before ++ v) ++ ']' :: unread = (p ++ c :: sec.text) ++ ']' :: unread := by
          rw [List.append_assoc, ← hd, ← hafter, hsplit]
          simp [hd]
        exact List.append_cancel_right hwhole
      have hname : '\n' ∉ c :: sec.text := by simp [hc.symm, hsec.newline]
      have hplace : ∃ q, p = before ++ q ∧ v = q ++ c :: sec.text := by
        rcases List.append_eq_append_iff.mp hcut with ⟨q, hp, hv⟩ | ⟨r, hb, hr⟩
        · exact ⟨q, hp, hv⟩
        · have hnil : r = [] := by
            refine endsLine_behind (hb ▸ hbefore) fun h => hname ?_
            rw [hr]
            exact List.mem_append_left v h
          exact ⟨[], by rw [hb, hnil, List.append_nil, List.append_nil], by rw [hr, hnil]; rfl⟩
      obtain ⟨q, rfl, hv⟩ := hplace
      have hfile' : before ++ (commentLine t ++ after) =
          (before ++ (commentLine t ++ q)) ++ c :: (sec.text ++ ']' :: unread) := by
        rw [hafter, hv, hd]
        simp
      simp only [iniparserGetStringAtPosition, fseek_append hsplit (position_eq hsplit),
        fseek_append hfile' (position_eq hfile')]
      exact ⟨trivial, trivial⟩

theorem nextStep_buf {s' : NextScan} {c : Char} (h : nextStep s c = .next s') :
    s'.buf = s.buf ∨ s'.buf = s.buf ++ [c] := by
  simp only [nextStep] at h
  repeat' split at h
  all_goals first
    | (cases h; exact Or.inl rfl)
    | (cases h; exact Or.inr rfl)
    | cases h

theorem nextStep_name {c : Char} (h : nextStep s c = .found name) : name = s.buf ∧ s.buf ≠ [] := by
  simp only [nextStep] at h
  repeat' split at h
  all_goals first
    | cases h; simp_all
    | cases h

/-- An empty name is not found. -/
theorem hasSectionLoop_empty (hs : nul ∉ s.buf) (hw : nul ∉ w) : hasSectionLoop [] s w = none := by
  induction w generalizing s with
  | nil => rfl
  | cons c w ih =>
      rw [List.mem_cons, not_or] at hw
      rw [hasSectionLoop]
      cases hstep : nextStep s c with
      | next s' =>
          refine ih ?_ hw.2
          cases nextStep_buf hstep with
          | inl hbuf => rwa [hbuf]
          | inr hbuf => simp [hbuf, hs, hw.1]
      | found name =>
          obtain ⟨hbuf, hne⟩ := nextStep_name hstep
          have hname : cText name ≠ [] := by rwa [hbuf, cText_eq_self hs]
          simp only [if_neg hname]
          exact ih List.not_mem_nil hw.2

end

/-- A comment line at the start of any line changes neither what is found nor what is read. -/
theorem commentLine_same_answers (before after t : Text) (sec : CString) (hbefore : EndsLine before)
    (hnul : nul ∉ before ++ after) (ht : '\n' ∉ t) (hnewline : '\n' ∉ sec.text)
    (hbracket : ']' ∉ sec.text) :
    SameAnswers (before ++ after) (before ++ (commentLine t ++ after)) sec := by
  by_cases hempty : sec.text = []
  · have hnone : hasSectionLoop sec.text NextScan.initial (before ++ after) = none := by
      rw [hempty]
      exact hasSectionLoop_empty List.not_mem_nil hnul
    have hhas : iniparserHasSection (before ++ after) sec = none := hnone
    rw [SameAnswers, hhas, iniparserHasSection_commentLine hbefore ht]
    rw [hasSectionLoop_append] at hnone
    cases hfound : hasSectionLoop sec.text NextScan.initial before with
    | none =>
        rw [hfound] at hnone
        simp only at hnone
        simp only [hnone]
    | some unread =>
        rw [hfound] at hnone
        cases hnone
  · have hsec : OneLine sec.text := ⟨hempty, hnewline, hbracket⟩
    cases hfound : hasSectionLoop sec.text NextScan.initial before with
    | none => exact sameAnswers_behind hsec hnul hbefore ht hfound
    | some unread =>
        have hnul' : nul ∉ before := fun h => hnul (List.mem_append_left _ h)
        exact sameAnswers_before hsec hnul' hbefore ht hfound

theorem commentLine_same_answers_key :
    SameAnswers ("[joe]\n".toList ++ "env=TERM\n".toList)
      ("[joe]\n".toList ++ (commentLine "[joe]".toList ++ "env=TERM\n".toList)) (quoted "joe") :=
  commentLine_same_answers "[joe]\n".toList "env=TERM\n".toList "[joe]".toList (quoted "joe")
    (Or.inr ⟨"[joe]".toList, by decide⟩) (by decide) (by decide) (by decide) (by decide)

end Jailkit.Ini
