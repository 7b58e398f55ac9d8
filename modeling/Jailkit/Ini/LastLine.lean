import Jailkit.Ini.RoundTrip

/-!
A last line without a newline: where a value goes on to the end of the file, the character
that stands for the end becomes its last one.
-/
namespace Jailkit.Ini

/-- A lookup sees no difference when a newline is put behind the file, and neither does
whoever takes the value apart. -/
structure EndsAlike (file : Text) (sec key : CString) (position : Int) (bufferlen : Nat) :
    Prop where
  ret : (iniparserGetStringAtPosition file sec key position bufferlen).ret =
    (iniparserGetStringAtPosition (file ++ ['\n']) sec key position bufferlen).ret
  buffer : (iniparserGetStringAtPosition file sec key position bufferlen).buffer =
    (iniparserGetStringAtPosition (file ++ ['\n']) sec key position bufferlen).buffer
  items : ∀ delimiter,
    explodeString (cText (iniparserGetStringAtPosition file sec key position bufferlen).buffer)
        delimiter =
      explodeString
        (cText (iniparserGetStringAtPosition (file ++ ['\n']) sec key position bufferlen).buffer)
        delimiter

/-- The key is taken on the last line, which has no newline. -/
def ValueAtEnd (sec key : CString) (text : Text) : Prop :=
  ∃ t r, text = t ++ '=' :: r ∧ TakesKey sec key t ∧ '\n' ∉ r

section

variable {sec key : CString} {n : Nat} {file text r : Text} {position : Int}

/-- The position lies behind the end of the file, or the newline comes last from there too. -/
theorem fseek_newline :
    fseek (file ++ ['\n']) position = fseek file position ++ ['\n'] ∨
      fseek (file ++ ['\n']) position = [] ∧ fseek file position = [] := by
  rw [fseek, fseek]
  split
  · exact Or.inl rfl
  · by_cases hle : position.toNat ≤ file.length
    · exact Or.inl (List.drop_append_of_le_length hle)
    · refine Or.inr ⟨List.drop_eq_nil_of_le ?_, List.drop_eq_nil_of_le (by omega)⟩
      rw [List.length_append, List.length_singleton]
      omega

theorem exhausted_newline (h : Exhausted sec key text) : Exhausted sec key (text ++ ['\n']) := by
  obtain ⟨t, u, rfl, hseek, hu⟩ := h
  cases hu with
  | inl hnil =>
      subst hnil
      rw [List.append_nil]
      have hshown : Shown t '\n' := shown_of_ne (by decide)
      rcases seeking_step hseek hshown with hnext | ⟨hc, -⟩ | ⟨hc, -⟩
      · exact ⟨t ++ ['\n'], [], by simp, hnext, Or.inl rfl⟩
      · cases hc
      · cases hc
  | inr hcomment =>
      obtain ⟨hstart, w, rfl, hw⟩ := hcomment
      have hhidden : Hidden t ('#' :: (w ++ ['\n'])) := ⟨hstart, w, rfl, hw⟩
      exact ⟨t ++ '#' :: (w ++ ['\n']), [], by simp, seeking_hidden hseek hhidden, Or.inl rfl⟩

theorem readValue_newline (hnul : nul ∉ r) (hroom : r.length < n) (h : '\n' ∈ r) (u : Text) :
    (readValue n '=' false [] (r ++ u)).ret = (readValue n '=' false [] r).ret ∧
      (readValue n '=' false [] (r ++ u)).buffer = (readValue n '=' false [] r).buffer := by
  obtain ⟨w, rest, rfl, hw⟩ := List.eq_append_cons_of_mem h
  rw [List.mem_append, not_or] at hnul
  have hprev : '=' ≠ '\n' ∧ '=' ≠ nul := by decide
  have hshown : ∀ c ∈ w, c ≠ '\n' ∧ c ≠ nul := by
    intro c hc
    exact ⟨fun heq => hw (heq ▸ hc), fun heq => hnul.1 (heq ▸ hc)⟩
  have hfits : ([] : Text).length + w.length < n := by
    rw [List.length_append] at hroom
    simp only [List.length_nil]
    omega
  rw [List.append_assoc, List.cons_append, readValue_line _ hprev hshown hfits,
    readValue_line _ hprev hshown hfits]
  exact ⟨rfl, rfl⟩

/-- Without a newline the byte of `EOF` is read with the value. -/
theorem readValue_no_newline (hnul : nul ∉ r) (hroom : r.length < n) (h : '\n' ∉ r) :
    (readValue n '=' false [] r).buffer = r ++ [eofChar] ∧
      (readValue n '=' false [] (r ++ ['\n'])).buffer = r := by
  have hprev : '=' ≠ '\n' ∧ '=' ≠ nul := by decide
  have hnul' : nul ∉ '=' :: r := by
    rw [List.mem_cons, not_or]
    exact ⟨hprev.2.symm, hnul⟩
  have hshown : ∀ c ∈ r, c ≠ '\n' ∧ c ≠ nul := by
    intro c hc
    exact ⟨fun heq => h (heq ▸ hc), fun heq => hnul (heq ▸ hc)⟩
  have hfits : ([] : Text).length + r.length < n := by simpa using hroom
  rw [readValue_eof hprev.1 hnul' h hfits, readValue_line [] hprev hshown hfits]
  exact ⟨rfl, rfl⟩

/-- Only the value at the end of the text is read differently. -/
theorem scanLoop_newline (hnul : nul ∉ text) (hroom : text.length < n)
    (h : ¬ ValueAtEnd sec key text) :
    (scanLoop sec key n Scan.initial text).ret =
        (scanLoop sec key n Scan.initial (text ++ ['\n'])).ret ∧
      (scanLoop sec key n Scan.initial text).buffer =
        (scanLoop sec key n Scan.initial (text ++ ['\n'])).buffer := by
  cases lookup_cases sec key text with
  | value t r htext hkey =>
      have hnewline : '\n' ∈ r := by
        by_contra hr
        exact h ⟨t, r, htext, hkey, hr⟩
      subst htext
      rw [List.mem_append, not_or, List.mem_cons, not_or] at hnul
      rw [List.length_append, List.length_cons] at hroom
      have hfits : r.length < n := by omega
      obtain ⟨hret, hbuffer⟩ := readValue_newline hnul.2.2 hfits hnewline ['\n']
      rw [List.append_assoc, List.cons_append, takesKey_scanLoop sec key n hkey,
        takesKey_scanLoop sec key n hkey]
      exact ⟨hret.symm, hbuffer.symm⟩
  | «section» t r htext hsection =>
      subst htext
      rw [List.append_assoc, List.cons_append, meetsSection_scanLoop sec key n hsection,
        meetsSection_scanLoop sec key n hsection]
      exact ⟨rfl, rfl⟩
  | exhausted hend =>
      rw [exhausted_scanLoop sec key n hend, exhausted_scanLoop sec key n (exhausted_newline hend)]
      exact ⟨rfl, rfl⟩

theorem nul_not_mem_fseek (hnul : nul ∉ file) : nul ∉ fseek file position := by
  rw [fseek]
  split
  · exact hnul
  · exact fun h => hnul (List.mem_of_mem_drop h)

theorem length_fseek_le : (fseek file position).length ≤ file.length := by
  rw [fseek]
  split
  · exact Nat.le_refl _
  · rw [List.length_drop]
    exact Nat.sub_le _ _

end

/-- A final newline makes no difference unless the value of the key goes on to the end of the
file. -/
theorem endsAlike_iff (file : Text) (sec key : CString) (position : Int) (bufferlen : Nat)
    (hnul : nul ∉ file) (hroom : file.length < bufferlen) :
    EndsAlike file sec key position bufferlen ↔ ¬ ValueAtEnd sec key (fseek file position) := by
  have hnul' : nul ∉ fseek file position := nul_not_mem_fseek hnul
  have hroom' : (fseek file position).length < bufferlen := length_fseek_le.trans_lt hroom
  constructor
  · intro h hvalue
    obtain ⟨t, r, htext, hkey, hr⟩ := hvalue
    have hbuffer := h.buffer
    rw [htext, List.mem_append, not_or, List.mem_cons, not_or] at hnul'
    rw [htext, List.length_append, List.length_cons] at hroom'
    have hfits : r.length < bufferlen := by omega
    have hread := readValue_no_newline hnul'.2.2 hfits hr
    rcases @fseek_newline file position with hseek | hseek
    · rw [iniparserGetStringAtPosition, iniparserGetStringAtPosition, hseek, htext,
        List.append_assoc, List.cons_append, takesKey_scanLoop sec key bufferlen hkey,
        takesKey_scanLoop sec key bufferlen hkey, hread.1, hread.2] at hbuffer
      have hlen := congrArg List.length hbuffer
      simp at hlen
    · rw [hseek.2] at htext
      simp at htext
  · intro h
    have hsame : (iniparserGetStringAtPosition file sec key position bufferlen).ret =
          (iniparserGetStringAtPosition (file ++ ['\n']) sec key position bufferlen).ret ∧
        (iniparserGetStringAtPosition file sec key position bufferlen).buffer =
          (iniparserGetStringAtPosition (file ++ ['\n']) sec key position bufferlen).buffer := by
      rw [iniparserGetStringAtPosition, iniparserGetStringAtPosition]
      rcases @fseek_newline file position with hseek | hseek
      · rw [hseek]
        exact scanLoop_newline hnul' hroom' h
      · rw [hseek.1, hseek.2]
        exact ⟨rfl, rfl⟩
    exact ⟨hsame.1, hsame.2, fun delimiter => by rw [hsame.2]⟩

theorem endsAlike_iff_executables :
    EndsAlike "[DEFAULT]\nexecutables=/bin/ls".toList (quoted "DEFAULT") (quoted "executables") 0
        1024 ↔
      ¬ ValueAtEnd (quoted "DEFAULT") (quoted "executables")
        (fseek "[DEFAULT]\nexecutables=/bin/ls".toList 0) :=
  endsAlike_iff "[DEFAULT]\nexecutables=/bin/ls".toList (quoted "DEFAULT") (quoted "executables") 0
    1024 (by decide) (by decide)

/-- Without the newline the last program that is allowed has another name. -/
theorem iniparserGetString_keeps_eof :
    ¬ EndsAlike "[DEFAULT]\nexecutables=/bin/ls".toList (quoted "DEFAULT") (quoted "executables") 0
        1024 ∧
      explodeString (cText (iniparserGetStringAtPosition
          "[DEFAULT]\nexecutables=/bin/ls".toList (quoted "DEFAULT") (quoted "executables") 0
          1024).buffer) ',' = ["/bin/ls".toList ++ [eofChar]] :=
  ⟨fun h => absurd h.ret (by decide), by decide⟩

end Jailkit.Ini
