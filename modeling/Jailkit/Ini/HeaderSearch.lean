import Jailkit.Ini.Exact
import Mathlib.Data.List.Induction

/-!
What `iniparser_has_section` takes for a header. It calls `iniparser_next_section`
again and again, and that function follows no line structure either: any bracketed
text outside comments is a name, and an open bracket stays open over line ends.
-/
namespace Jailkit.Ini

/-- A bracket behind `p` is the first non-blank of its line. -/
def HeaderPlace (p : Text) : Prop := ∃ q b, p = q ++ b ∧ EndsLine q ∧ Blank b

/-- A line of the file consists, after leading blanks, of `[sec]` and more. The line
starts with a blank or a bracket, so it is no comment. -/
def HeaderLine (sec file p unread : Text) : Prop :=
  file = p ++ '[' :: (sec ++ ']' :: unread) ∧ HeaderPlace p

def Scan.entered : Scan := { Scan.initial with ch := ']', inSection := true }

/-- The header found is a header line, and a lookup goes on behind it; without a
header found there is no header line. -/
def AgreesOn (file : Text) (sec : CString) : Prop :=
  match iniparserHasSection file sec with
  | some unread =>
      (∃ p, HeaderLine sec.text file p unread) ∧
        ∀ key bufferlen,
          iniparserGetStringAtPosition file sec key
              (file.length - unread.length - sec.text.length - 2) bufferlen =
            scanLoop sec key bufferlen Scan.entered unread
  | none => ∀ p unread, ¬ HeaderLine sec.text file p unread

/-- `SeeksName t u m`: the calls that have returned read `t`, and the running one has
read `u`; `m` is what it keeps behind an open bracket. -/
inductive SeeksName : Text → Text → Option Text → Prop where
  | start : SeeksName [] [] none
  | hidden {t u w m} : SeeksName t u m → Hidden u w → SeeksName t (u ++ w) m
  | other {t u c} : SeeksName t u none → Shown u c → c ≠ '[' → SeeksName t (u ++ [c]) none
  | opened {t u} : SeeksName t u none → SeeksName t (u ++ ['[']) (some [])
  | letter {t u b c} : SeeksName t u (some b) → Shown u c → c ≠ ']' →
      SeeksName t (u ++ [c]) (some (b ++ [c]))
  | empty {t u} : SeeksName t u (some []) → SeeksName t (u ++ [']']) (some [])
  | named {t u b} : SeeksName t u (some b) → b ≠ [] → SeeksName (t ++ (u ++ [']'])) [] none

/-- No bracket and no comment is open after `p`. -/
def Outside (p : Text) : Prop := ∃ t u, p = t ++ u ∧ SeeksName t u none

/-- A bracketed `sec` that is found in `t` stands on a header line. -/
def NoStray (sec t : Text) : Prop :=
  ∀ p k r, t = p ++ '[' :: (List.replicate k ']' ++ (sec ++ ']' :: r)) → Outside p →
    k = 0 ∧ HeaderPlace p

/-- Neither header lines nor strays; or a header line outside other brackets with no
stray before it. -/
def SearchesStraight (file sec : Text) : Prop :=
  (∀ p unread, ¬ HeaderLine sec file p unread) ∧ NoStray sec file ∨
    ∃ p unread, HeaderLine sec file p unread ∧ Outside p ∧ NoStray sec p

def searchStep (s : NextScan) (c : Char) : NextScan :=
  match nextStep s c with
  | .next s' => s'
  | .found _ => NextScan.initial

def searchAfter (s : NextScan) (t : Text) : NextScan := t.foldl searchStep s

theorem searchAfter_append (s : NextScan) (t u : Text) :
    searchAfter s (t ++ u) = searchAfter (searchAfter s t) u := List.foldl_append

def Completes (sec : Text) (s : NextScan) (c : Char) : Prop :=
  ∃ name, nextStep s c = .found name ∧ cText name = sec

theorem hasSectionLoop_spec (sec : Text) (s : NextScan) (rest : Text) :
    match hasSectionLoop sec s rest with
    | some unread =>
        ∃ v c, rest = v ++ c :: unread ∧ Completes sec (searchAfter s v) c ∧
          ∀ v' c' r, v = v' ++ c' :: r → ¬ Completes sec (searchAfter s v') c'
    | none => ∀ v c r, rest = v ++ c :: r → ¬ Completes sec (searchAfter s v) c := by
  induction rest generalizing s with
  | nil =>
      intro v c r h
      simp at h
  | cons c rest ih =>
      by_cases hc : Completes sec s c
      · obtain ⟨name, hstep, hname⟩ := hc
        simp only [hasSectionLoop, hstep, if_pos hname]
        exact ⟨[], c, rfl, ⟨name, hstep, hname⟩, by simp⟩
      · have hloop : hasSectionLoop sec s (c :: rest) =
            hasSectionLoop sec (searchStep s c) rest := by
          simp only [hasSectionLoop, searchStep]
          cases hstep : nextStep s c with
          | next s' => rfl
          | found name => exact if_neg fun hname => hc ⟨name, hstep, hname⟩
        have hfirst : ∀ v c' r, c :: rest = v ++ c' :: r →
            (∀ v' r', rest = v' ++ c' :: r' →
              ¬ Completes sec (searchAfter (searchStep s c) v') c') →
            ¬ Completes sec (searchAfter s v) c' := by
          intro v c' r hsplit hrest
          cases v with
          | nil =>
              obtain ⟨rfl, -⟩ := List.cons.inj hsplit
              exact hc
          | cons d v =>
              obtain ⟨rfl, htail⟩ := List.cons.inj hsplit
              exact hrest v r htail
        have h := ih (searchStep s c)
        rw [hloop]
        cases hout : hasSectionLoop sec (searchStep s c) rest with
        | none =>
            rw [hout] at h
            intro v c' r hsplit
            exact hfirst v c' r hsplit fun v' r' => h v' c' r'
        | some unread =>
            rw [hout] at h
            obtain ⟨v, d, hrest, hd, hmin⟩ := h
            refine ⟨c :: v, d, by rw [hrest, List.cons_append], hd, ?_⟩
            intro v' c' r hsplit
            cases v' with
            | nil =>
                obtain ⟨rfl, -⟩ := List.cons.inj hsplit
                exact hc
            | cons e v' =>
                obtain ⟨rfl, htail⟩ := List.cons.inj hsplit
                exact hmin v' c' r htail

/-- The state behind `u`, outside a comment. -/
def nameState (u : Text) (m : Option Text) : NextScan where
  buf := m.getD []
  sectionStart := m.isSome
  inComment := false
  prevch := lastChar u

theorem searchAfter_snoc {s s' : NextScan} {t : Text} (h : searchAfter s t = s') (c : Char) :
    searchAfter s (t ++ [c]) = searchStep s' c := by
  rw [searchAfter_append, h]
  rfl

theorem nextStep_found {s : NextScan} {c : Char} {name : Text}
    (h : nextStep s c = .found name) : c = ']' ∧ s.sectionStart = true ∧ s.buf = name := by
  have hlast : (s.sectionStart && !s.buf.isEmpty && c == ']') = true := by
    by_contra hnot
    simp only [nextStep, if_neg hnot] at h
    repeat' split at h
    all_goals cases h
  simp only [Bool.and_eq_true, beq_iff_eq] at hlast
  refine ⟨hlast.2, hlast.1.1, ?_⟩
  simp only [nextStep, hlast.2] at h
  repeat' split at h
  all_goals first
    | cases h; rfl
    | cases h

theorem nextStep_inComment (s : NextScan) (c : Char) (hs : s.inComment = true) :
    nextStep s c = .next { s with inComment := c != '\n', prevch := c } := by
  obtain ⟨buf, sectionStart, inComment, prevch⟩ := s
  cases hs
  by_cases hc : c = '\n'
  · simp [nextStep, hc]
  · simp [nextStep, hc]

theorem searchAfter_inComment (s : NextScan) (w : Text) (hs : s.inComment = true)
    (hw : '\n' ∉ w) :
    (searchAfter s w).inComment = true ∧
      searchAfter s (w ++ ['\n']) = { s with inComment := false, prevch := '\n' } := by
  induction w generalizing s with
  | nil =>
      refine ⟨hs, ?_⟩
      simp [searchAfter, searchStep, nextStep_inComment s _ hs]
  | cons c w ih =>
      have hc : c ≠ '\n' := fun h => hw (by simp [h])
      have hw' : '\n' ∉ w := fun h => hw (List.mem_cons_of_mem _ h)
      have hstep : searchStep s c = { s with inComment := true, prevch := c } := by
        simp [searchStep, nextStep_inComment s c hs, hc]
      simpa only [List.cons_append, searchAfter, List.foldl_cons, hstep] using
        ih { s with inComment := true, prevch := c } rfl hw'

theorem nextStep_hash {u : Text} (m : Option Text) (h : LineStart u) :
    nextStep (nameState u m) '#' =
      .next { nameState u m with inComment := true, prevch := '#' } := by
  have hprev : (lastChar u == '\n' || lastChar u == nul) = true := by
    cases h with
    | inl h => simp [h]
    | inr h => simp [h]
  simp [nextStep, nameState, hprev]

theorem searchStep_hash {u : Text} (m : Option Text) (h : LineStart u) :
    searchStep (nameState u m) '#' = { nameState u m with inComment := true, prevch := '#' } := by
  rw [searchStep, nextStep_hash m h]

theorem searchAfter_hidden {s : NextScan} {t u w : Text} {m : Option Text}
    (h : searchAfter s (t ++ u) = nameState u m) (hw : Hidden u w) :
    searchAfter s (t ++ (u ++ w)) = nameState (u ++ w) m := by
  have hlast := lastChar_hidden hw
  obtain ⟨hstart, v, rfl, hv⟩ := hw
  have hcom := (searchAfter_inComment
    { nameState u m with inComment := true, prevch := '#' } v rfl hv).2
  rw [← List.append_assoc, searchAfter_append, h, searchAfter, List.foldl_cons,
    searchStep_hash m hstart]
  refine hcom.trans ?_
  simp only [nameState, hlast]

/-- One byte outside comments. -/
theorem nextStep_shown {u : Text} {c : Char} (hc : Shown u c) :
    nextStep (nameState u none) c =
      .next (nameState (u ++ [c]) (if c = '[' then some [] else none)) := by
  have hguard := shown_guard hc
  by_cases hb : c = '['
  · simp [nextStep, nameState, hb]
  · simp [nextStep, nameState, hguard, hb]

theorem nextStep_letter {u b : Text} {c : Char} (hc : Shown u c) (hb : c ≠ ']') :
    nextStep (nameState u (some b)) c = .next (nameState (u ++ [c]) (some (b ++ [c]))) := by
  have hguard := shown_guard hc
  simp [nextStep, nameState, hguard, hb]

theorem nextStep_empty (u : Text) :
    nextStep (nameState u (some [])) ']' = .next (nameState (u ++ [']']) (some [])) := by
  simp [nextStep, nameState]

theorem nextStep_named (u : Text) {b : Text} (hb : b ≠ []) :
    nextStep (nameState u (some b)) ']' = .found b := by
  simp [nextStep, nameState, hb]

theorem seeksName_searchAfter {t u : Text} {m : Option Text} (h : SeeksName t u m) :
    searchAfter NextScan.initial (t ++ u) = nameState u m := by
  induction h with
  | start => rfl
  | hidden _ hw ih => exact searchAfter_hidden ih hw
  | other _ hc hb ih =>
      rw [← List.append_assoc, searchAfter_snoc ih, searchStep, nextStep_shown hc, if_neg hb]
  | opened _ ih =>
      rw [← List.append_assoc, searchAfter_snoc ih, searchStep,
        nextStep_shown (shown_of_ne (by decide)), if_pos rfl]
  | letter _ hc hb ih =>
      rw [← List.append_assoc, searchAfter_snoc ih, searchStep, nextStep_letter hc hb]
  | empty _ ih => rw [← List.append_assoc, searchAfter_snoc ih, searchStep, nextStep_empty]
  | named _ hb ih =>
      rw [List.append_nil, ← List.append_assoc, searchAfter_snoc ih, searchStep,
        nextStep_named _ hb]
      rfl

def InComment (p : Text) : Prop :=
  ∃ t u m w, p = t ++ (u ++ '#' :: w) ∧ SeeksName t u m ∧ LineStart u ∧ '\n' ∉ w

theorem inComment_searchAfter {p : Text} (h : InComment p) :
    (searchAfter NextScan.initial p).inComment = true := by
  obtain ⟨t, u, m, w, rfl, hseek, hstart, hw⟩ := h
  rw [← List.append_assoc, searchAfter_append, seeksName_searchAfter hseek, searchAfter,
    List.foldl_cons, searchStep_hash m hstart]
  exact (searchAfter_inComment _ w rfl hw).1

/-- Every text is read to one of the states. -/
theorem seeksName_total (p : Text) :
    (∃ t u m, p = t ++ u ∧ SeeksName t u m) ∨ InComment p := by
  induction p using List.reverseRecOn with
  | nil => exact Or.inl ⟨[], [], none, rfl, .start⟩
  | append_singleton p c ih =>
      cases ih with
      | inl h =>
          obtain ⟨t, u, m, rfl, hseek⟩ := h
          by_cases hc : Shown u c
          · refine Or.inl ?_
            cases m with
            | none =>
                by_cases hb : c = '['
                · subst hb
                  exact ⟨t, u ++ ['['], _, by simp, .opened hseek⟩
                · exact ⟨t, u ++ [c], _, by simp, .other hseek hc hb⟩
            | some b =>
                by_cases hb : c = ']'
                · subst hb
                  by_cases hempty : b = []
                  · subst hempty
                    exact ⟨t, u ++ [']'], _, by simp, .empty hseek⟩
                  · exact ⟨t ++ (u ++ [']']), [], _, by simp, .named hseek hempty⟩
                · exact ⟨t, u ++ [c], _, by simp, .letter hseek hc hb⟩
          · obtain ⟨rfl, hstart⟩ := Classical.not_not.mp hc
            exact Or.inr ⟨t, u, m, [], by simp, hseek, hstart, by simp⟩
      | inr h =>
          obtain ⟨t, u, m, w, rfl, hseek, hstart, hw⟩ := h
          by_cases hnl : c = '\n'
          · subst hnl
            exact Or.inl ⟨t, u ++ '#' :: (w ++ ['\n']), m, by simp,
              .hidden hseek ⟨hstart, w, rfl, hw⟩⟩
          · exact Or.inr ⟨t, u, m, w ++ [c], by simp, hseek, hstart, by simp [hw, Ne.symm hnl]⟩

/-- The next `]` closes the name `sec`. -/
def Closes (sec p : Text) : Prop := ∃ t u, p = t ++ u ∧ SeeksName t u (some sec)

theorem seeksName_bytes {t u b : Text} {m : Option Text} (h : SeeksName t u m)
    (hm : m = some b) : ∀ c ∈ b, c ∈ u := by
  induction h generalizing b with
  | start | other | named => cases hm
  | hidden _ _ ih => exact fun c hc => List.mem_append_left _ (ih hm c hc)
  | opened | empty =>
      cases hm
      simp
  | letter _ _ _ ih =>
      cases hm
      intro c hc
      rw [List.mem_append] at hc ⊢
      exact hc.imp_left (ih rfl c)

/-- Where no byte is NUL, the search ends at the first `]` that closes the name. -/
theorem completes_iff_closes {sec p : Text} (hnul : nul ∉ p) (hsec : sec ≠ []) (c : Char) :
    Completes sec (searchAfter NextScan.initial p) c ↔ c = ']' ∧ Closes sec p := by
  constructor
  · intro h
    obtain ⟨name, hstep, hname⟩ := h
    cases seeksName_total p with
    | inl h =>
        obtain ⟨t, u, m, rfl, hseek⟩ := h
        rw [seeksName_searchAfter hseek] at hstep
        obtain ⟨rfl, hopen, hbuf⟩ := nextStep_found hstep
        cases m with
        | none => cases hopen
        | some b =>
            have hbuf : b = name := hbuf
            subst hbuf
            have hnul' : nul ∉ b := fun h =>
              hnul (List.mem_append_right t (seeksName_bytes hseek rfl _ h))
            rw [cText_eq_self hnul'] at hname
            exact ⟨rfl, t, u, rfl, hname ▸ hseek⟩
    | inr h =>
        rw [nextStep_inComment _ _ (inComment_searchAfter h)] at hstep
        cases hstep
  · intro h
    obtain ⟨rfl, t, u, rfl, hseek⟩ := h
    have hnul' : nul ∉ sec := fun h => hnul (List.mem_append_right _ (seeksName_bytes hseek rfl _ h))
    exact ⟨sec, by rw [seeksName_searchAfter hseek, nextStep_named u hsec], cText_eq_self hnul'⟩

/-- A name without newline is open behind its own bracket only. -/
theorem seeksName_shape {t u b : Text} {m : Option Text} (h : SeeksName t u m)
    (hnul : nul ∉ u) (hm : m = some b) (hnl : '\n' ∉ b) :
    ∃ u' k, u = u' ++ '[' :: (List.replicate k ']' ++ b) ∧ SeeksName t u' none := by
  induction h generalizing b with
  | start | other | named => cases hm
  | @hidden t u w m _ hw ih =>
      obtain ⟨u', k, hu, -⟩ := ih (fun h => hnul (by simp [h])) hm hnl
      have hmem := lastChar_mem u' (List.cons_ne_nil '[' (List.replicate k ']' ++ b))
      rw [← hu] at hmem
      cases hw.1 with
      | inl hlast =>
          rw [hlast] at hmem
          simp [hnl] at hmem
      | inr hlast =>
          rw [hlast] at hmem
          have hin : nul ∈ u := hu ▸ List.mem_append_right _ hmem
          exact absurd (List.mem_append_left w hin) hnul
  | @opened t u h _ =>
      cases hm
      exact ⟨u, 0, by simp, h⟩
  | @letter t u b c _ _ _ ih =>
      cases hm
      obtain ⟨u', k, rfl, hseek⟩ := ih (fun h => hnul (by simp [h])) rfl
        (fun h => hnl (by simp [h]))
      exact ⟨u', k, by simp, hseek⟩
  | @empty t u _ ih =>
      cases hm
      obtain ⟨u', k, rfl, hseek⟩ := ih (fun h => hnul (by simp [h])) rfl hnl
      exact ⟨u', k + 1, by simp [List.replicate_succ'], hseek⟩

/-- Behind an open bracket no comment starts on the same line. -/
theorem shown_bracket {u v : Text} (c : Char) (hnl : '\n' ∉ v) (hnul : nul ∉ v) :
    Shown (u ++ '[' :: v) c := by
  intro h
  obtain ⟨-, hstart⟩ := h
  have hmem := lastChar_mem u (List.cons_ne_nil '[' v)
  cases hstart with
  | inl hlast =>
      rw [hlast] at hmem
      exact hnl (by simpa using hmem)
  | inr hlast =>
      rw [hlast] at hmem
      exact hnul ((List.mem_cons.mp hmem).resolve_left (by decide))

theorem seeksName_name {t u b w : Text} {k : Nat} (hnl : '\n' ∉ b ++ w) (hnul : nul ∉ b ++ w)
    (hend : ']' ∉ w)
    (h : SeeksName t (u ++ '[' :: (List.replicate k ']' ++ b)) (some b)) :
    SeeksName t (u ++ '[' :: (List.replicate k ']' ++ (b ++ w))) (some (b ++ w)) := by
  induction w generalizing b with
  | nil => simpa using h
  | cons c w ih =>
      have hc : c ≠ ']' := fun h => hend (by simp [h])
      have hshown : Shown (u ++ '[' :: (List.replicate k ']' ++ b)) c := by
        refine shown_bracket c ?_ ?_
        · intro h
          exact hnl (List.mem_append_left _ (by simpa using h))
        · intro h
          have hmem := List.mem_append.mp h
          refine hnul (List.mem_append_left _ (hmem.resolve_left fun h => ?_))
          exact absurd (List.eq_of_mem_replicate h) (by decide)
      have hnext := SeeksName.letter h hshown hc
      have hmore := @ih (b ++ [c]) (by simpa using hnl) (by simpa using hnul)
        (fun h => hend (List.mem_cons_of_mem c h)) (by simpa using hnext)
      simpa using hmore

theorem seeksName_open {t u : Text} (h : SeeksName t u none) (k : Nat) :
    SeeksName t (u ++ '[' :: List.replicate k ']') (some []) := by
  induction k with
  | zero => exact .opened h
  | succ k ih => simpa [List.replicate_succ'] using SeeksName.empty ih

structure OneLine (sec : Text) : Prop where
  nonempty : sec ≠ []
  newline : '\n' ∉ sec
  bracket : ']' ∉ sec

theorem closes_iff {sec : CString} {p : Text} (hsec : OneLine sec.text) (hnul : nul ∉ p) :
    Closes sec.text p ↔
      ∃ p' k, p = p' ++ '[' :: (List.replicate k ']' ++ sec.text) ∧ Outside p' := by
  constructor
  · intro h
    obtain ⟨t, u, rfl, hseek⟩ := h
    obtain ⟨u', k, rfl, hout⟩ := seeksName_shape hseek (fun h => hnul (by simp [h])) rfl
      hsec.newline
    exact ⟨t ++ u', k, by simp, t, u', rfl, hout⟩
  · intro h
    obtain ⟨p', k, rfl, t, u, rfl, hout⟩ := h
    have hopen := seeksName_open hout k
    have hname := @seeksName_name t u [] sec.text k hsec.newline sec.terminated hsec.bracket
      (by simpa using hopen)
    exact ⟨t, u ++ '[' :: (List.replicate k ']' ++ sec.text), by simp, hname⟩

theorem iniparserHasSection_spec {file : Text} {sec : CString} (hnul : nul ∉ file)
    (hsec : sec.text ≠ []) :
    match iniparserHasSection file sec with
    | some unread =>
        ∃ v, file = v ++ ']' :: unread ∧ Closes sec.text v ∧
          ∀ v' r, v = v' ++ ']' :: r → ¬ Closes sec.text v'
    | none => ∀ v r, file = v ++ ']' :: r → ¬ Closes sec.text v := by
  have h := hasSectionLoop_spec sec.text NextScan.initial file
  rw [iniparserHasSection]
  cases hout : hasSectionLoop sec.text NextScan.initial file with
  | none =>
      rw [hout] at h
      intro v r hfile hcloses
      have hnul' : nul ∉ v := fun h => hnul (by simp [hfile, h])
      exact h v ']' r hfile ((completes_iff_closes hnul' hsec ']').mpr ⟨rfl, hcloses⟩)
  | some unread =>
      rw [hout] at h
      obtain ⟨v, c, hfile, hc, hfirst⟩ := h
      have hnul' : nul ∉ v := fun h => hnul (by simp [hfile, h])
      obtain ⟨rfl, hcloses⟩ := (completes_iff_closes hnul' hsec c).mp hc
      refine ⟨v, hfile, hcloses, fun v' r hv hcloses' => ?_⟩
      have hnul'' : nul ∉ v' := fun h => hnul' (by simp [hv, h])
      exact hfirst v' ']' r hv ((completes_iff_closes hnul'' hsec ']').mpr ⟨rfl, hcloses'⟩)

theorem headerPlace_last {p : Text} (h : HeaderPlace p) :
    p = [] ∨ isspace (lastChar p) = true := by
  obtain ⟨q, b, rfl, hq, hb⟩ := h
  by_cases hempty : b = []
  · subst hempty
    rw [List.append_nil]
    refine hq.imp id fun h => ?_
    obtain ⟨q', rfl⟩ := h
    rw [lastChar_snoc]
    decide
  · exact Or.inr (hb _ (lastChar_mem q hempty)).1

theorem bracket_place {p p' sec : Text} {k : Nat}
    (h : p ++ '[' :: sec = p' ++ '[' :: (List.replicate k ']' ++ sec)) : k = 0 ∧ p = p' := by
  have hcut : p ++ ['['] = p' ++ '[' :: List.replicate k ']' := by
    have hsec : (p ++ ['[']) ++ sec = (p' ++ '[' :: List.replicate k ']') ++ sec := by
      simpa using h
    exact List.append_cancel_right hsec
  cases k with
  | zero => exact ⟨rfl, List.append_cancel_right hcut⟩
  | succ k =>
      rw [List.replicate_succ', ← List.cons_append, ← List.append_assoc] at hcut
      exact absurd (List.append_inj_right' hcut rfl) (by decide)

/-- The callers go back to the bracket of the header. -/
theorem fseek_header {file p sec unread : Text}
    (hfile : file = p ++ '[' :: (sec ++ ']' :: unread)) :
    fseek file (file.length - unread.length - sec.length - 2) =
      '[' :: (sec ++ ']' :: unread) := by
  have hpos : (file.length - unread.length - sec.length - 2 : Int) = p.length := by
    rw [hfile]
    simp only [List.length_append, List.length_cons]
    omega
  rw [hpos, fseek, if_neg (by omega), hfile]
  simp

theorem takesHeader_start {sec : CString} (hsec : sec.text ≠ []) (hnl : '\n' ∉ sec.text) :
    TakesHeader sec ('[' :: sec.text) :=
  takesHeader_of_line (A := []) (I := []) hsec (by simp) hnl (Or.inl rfl) (by simp [Blank])
    .start

/-- A lookup from there is in the section behind the header. -/
theorem lookup_enters {file p unread : Text} {sec : CString} (hsec : OneLine sec.text)
    (hfile : file = p ++ '[' :: (sec.text ++ ']' :: unread)) (key : CString)
    (bufferlen : Nat) :
    iniparserGetStringAtPosition file sec key
        (file.length - unread.length - sec.text.length - 2) bufferlen =
      scanLoop sec key bufferlen Scan.entered unread := by
  have hafter := takesHeader_scanAfter sec key bufferlen
    (takesHeader_start hsec.nonempty hsec.newline)
  have hlast : lastChar ('[' :: sec.text ++ [']']) = ']' := lastChar_snoc _ _
  have hunread : '[' :: (sec.text ++ ']' :: unread) = ('[' :: sec.text ++ [']']) ++ unread := by
    simp
  rw [iniparserGetStringAtPosition, fseek_header hfile, hunread, scanLoop_scanAfter hafter]
  simp only [keyState, hlast, Scan.entered]
  rfl

theorem outside_closes {sec : CString} {p : Text} (hsec : OneLine sec.text)
    (hnul : nul ∉ p) (h : Outside p) : Closes sec.text (p ++ '[' :: sec.text) := by
  have hnul' : nul ∉ p ++ '[' :: sec.text := by
    intro h
    have hmem := (List.mem_append.mp h).resolve_left hnul
    exact sec.terminated ((List.mem_cons.mp hmem).resolve_left (by decide))
  exact (closes_iff hsec hnul').mpr ⟨p, 0, rfl, h⟩

theorem agreesOn_of_searchesStraight {file : Text} {sec : CString} (hnul : nul ∉ file)
    (hsec : OneLine sec.text) (h : SearchesStraight file sec.text) : AgreesOn file sec := by
  have hspec := iniparserHasSection_spec hnul hsec.nonempty
  rw [AgreesOn]
  cases hout : iniparserHasSection file sec with
  | none =>
      rw [hout] at hspec
      intro p unread hline
      cases h with
      | inl h => exact h.1 p unread hline
      | inr h =>
          obtain ⟨p', r, ⟨hfile, -⟩, hp', -⟩ := h
          have hnul' : nul ∉ p' := fun h => hnul (by simp [hfile, h])
          exact hspec (p' ++ '[' :: sec.text) r (by simp [hfile])
            (outside_closes hsec hnul' hp')
  | some unread =>
      rw [hout] at hspec
      obtain ⟨v, hfile, hcloses, hfirst⟩ := hspec
      have hnulv : nul ∉ v := fun h => hnul (by simp [hfile, h])
      obtain ⟨p, k, rfl, hp⟩ := (closes_iff hsec hnulv).mp hcloses
      have hplace : k = 0 ∧ HeaderPlace p := by
        cases h with
        | inl h => exact h.2 p k unread (by simp [hfile]) hp
        | inr h =>
            obtain ⟨p', r, ⟨hfile', hplace'⟩, hp', hstray⟩ := h
            have hnul' : nul ∉ p' := fun h => hnul (by simp [hfile', h])
            have hsplit : (p ++ '[' :: (List.replicate k ']' ++ sec.text)) ++ ']' :: unread =
                (p' ++ '[' :: sec.text) ++ ']' :: r := by
              rw [← hfile, hfile']
              simp
            cases places_of_byte hsplit with
            | inl hsame =>
                obtain ⟨hk, rfl⟩ := bracket_place hsame.symm
                exact ⟨hk, hplace'⟩
            | inr hsplit =>
                cases hsplit with
                | inl hlater =>
                    obtain ⟨r', hlater⟩ := hlater
                    have hend : ']' ∉ '[' :: sec.text := by simp [hsec.bracket]
                    obtain ⟨r', hp''⟩ := place_in_first hlater hend
                    exact hstray p k r' (by simp [hp'']) hp
                | inr hearlier =>
                    obtain ⟨r', hearlier⟩ := hearlier
                    exact absurd (outside_closes hsec hnul' hp') (hfirst _ r' hearlier)
      obtain ⟨rfl, hplace⟩ := hplace
      have hfile : file = p ++ '[' :: (sec.text ++ ']' :: unread) := by simp [hfile]
      exact ⟨⟨p, hfile, hplace⟩, lookup_enters hsec hfile⟩

theorem searchesStraight_of_agreesOn {file : Text} {sec : CString} (hnul : nul ∉ file)
    (hsec : OneLine sec.text) (h : AgreesOn file sec) : SearchesStraight file sec.text := by
  have hspec := iniparserHasSection_spec hnul hsec.nonempty
  rw [AgreesOn] at h
  cases hout : iniparserHasSection file sec with
  | none =>
      rw [hout] at h hspec
      refine Or.inl ⟨h, fun p k r hfile hp => ?_⟩
      have hfile' : file = (p ++ '[' :: (List.replicate k ']' ++ sec.text)) ++ ']' :: r := by
        simp [hfile]
      have hnul' : nul ∉ p ++ '[' :: (List.replicate k ']' ++ sec.text) :=
        fun h => hnul (hfile' ▸ List.mem_append_left _ h)
      exact absurd ((closes_iff hsec hnul').mpr ⟨p, k, rfl, hp⟩) (hspec _ r hfile')
  | some unread =>
      rw [hout] at h hspec
      obtain ⟨⟨p, hline⟩, -⟩ := h
      obtain ⟨v, hfile, hcloses, hfirst⟩ := hspec
      have hv : v = p ++ '[' :: sec.text := by
        have hsplit : v ++ ']' :: unread = (p ++ '[' :: sec.text) ++ ']' :: unread := by
          rw [← hfile, hline.1]
          simp
        exact List.append_cancel_right hsplit
      subst hv
      have hnul' : nul ∉ p ++ '[' :: sec.text := fun h => hnul (hfile ▸ List.mem_append_left _ h)
      obtain ⟨p', k, hp', hout'⟩ := (closes_iff hsec hnul').mp hcloses
      obtain ⟨-, rfl⟩ := bracket_place hp'
      refine Or.inr ⟨p, unread, hline, hout', fun p' k r hp hstray => ?_⟩
      have hnul'' : nul ∉ p' ++ '[' :: (List.replicate k ']' ++ sec.text) := by
        intro h
        refine hnul' (List.mem_append_left _ ?_)
        rw [hp]
        have hassoc : p' ++ '[' :: (List.replicate k ']' ++ (sec.text ++ ']' :: r)) =
            (p' ++ '[' :: (List.replicate k ']' ++ sec.text)) ++ ']' :: r := by simp
        rw [hassoc]
        exact List.mem_append_left _ h
      exact absurd ((closes_iff hsec hnul'').mpr ⟨p', k, rfl, hstray⟩)
        (hfirst _ (r ++ '[' :: sec.text) (by rw [hp]; simp))

/-- The search takes header lines for headers, and only these, exactly if no other
bracket hides the header line or comes before it. -/
theorem agreesOn_iff {file : Text} {sec : CString} (hnul : nul ∉ file) (hsec : OneLine sec.text) :
    AgreesOn file sec ↔ SearchesStraight file sec.text :=
  ⟨searchesStraight_of_agreesOn hnul hsec, agreesOn_of_searchesStraight hnul hsec⟩

end Jailkit.Ini
