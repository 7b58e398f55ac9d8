import Jailkit.Ini.RoundTrip
import Jailkit.Lsh.Options

/-!
What jk_lsh executes: a word it can make of the command, if the word is among the items
it reads for `executables`. The items read are the items listed where the line is read
from its start to its end.
-/
namespace Jailkit.Lsh

open Prog Wrapper

/-- What the first word of the command can be: `wordexp` may answer anything. -/
def FirstWord (memory : Memory) (file : Text) (sec : CString) (position : Int)
    (command w : Text) : Prop :=
  Ini.intOption memory file sec position "allow_word_expansion" ≠ 0 ∨
    (explodeString command ' ').head? = some w

def pathList (memory : Memory) (file : Text) (sec : CString) (position : Int) :
    Option (List Text) :=
  (Ini.stringOption memory file sec position "paths").map (explodeString · ',')

/-- `newargv[0]` can be this word: the first word as it is, or behind one of the paths. -/
def Names (memory : Memory) (file : Text) (sec : CString) (position : Int)
    (command word : Text) : Prop :=
  ∃ w, FirstWord memory file sec position command w ∧
    (word = w ∨ ∃ paths, pathList memory file sec position = some paths ∧
      ∃ path ∈ paths, word = endingSlash path ++ w)

/-- The items of the value whose first byte is that of `r`. -/
def itemsRead (r : Text) : List Text :=
  explodeString (cText (Ini.readValue 1024 '=' false [] r).buffer) ','

/-- A line of the section for exactly this key has the word for one of its items. -/
def Listed (body word : Text) : Prop :=
  ∃ r, Ini.LineIn body "executables".toList r ∧
    ∃ item ∈ (Ini.valuePart r).splitOn ',', trim item = trim word

theorem returns_stat_bind {α : Type} {path : Text} {p q : Cmd α} {a : α} :
    Returns anyAnswer
        (Wrapper.perform (.stat path) >>= fun r => if fileExists r then p else q) () a () ↔
      Returns anyAnswer p () a () ∨ Returns anyAnswer q () a () := by
  constructor
  · intro h
    cases h with
    | @call _ _ _ r _ _ _ _ h =>
        cases hr : fileExists r with
        | true =>
            have hp : Returns anyAnswer (if fileExists r then p else q) () a () := h
            rw [hr] at hp
            exact Or.inl hp
        | false =>
            have hq : Returns anyAnswer (if fileExists r then p else q) () a () := h
            rw [hr] at hq
            exact Or.inr hq
  · intro h
    cases h with
    | inl h =>
        exact returns_bind (a := StatResult.ok ⟨0o100755, 0, 0⟩) (returns_perform.mpr trivial) h
    | inr h =>
        exact returns_bind (a := StatResult.failed 2 ⟨0, 0, 0⟩) (returns_perform.mpr trivial) h

theorem expandLoop_returns_iff {executable : Text} {paths : List Text} {new : Option Text} :
    Returns anyAnswer (expandLoop executable paths) () new () ↔
      new = none ∨ ∃ path ∈ paths, new = some (endingSlash path ++ executable) := by
  induction paths with
  | nil => simp [expandLoop]
  | cons path paths ih =>
      rw [expandLoop, returns_stat_bind, ih, returns_pure]
      simp only [List.mem_cons, exists_eq_or_imp]
      grind

theorem isAbsoluteFile_returns_iff {executable : Text} {b : Bool} :
    Returns anyAnswer (isAbsoluteFile executable) () b () ↔
      b = true → executable.head? = some '/' := by
  rw [isAbsoluteFile]
  split
  next habs =>
    refine iff_of_true ?_ fun _ => habs
    cases b with
    | true => exact .call (r := .ok ⟨0o100755, 0, 0⟩) trivial .ret
    | false => exact .call (r := .failed 2 ⟨0, 0, 0⟩) trivial .ret
  next habs =>
    rw [returns_pure]
    simp [habs]

theorem expandExecutable_returns_iff {executable : Text} {paths : Option (List Text)}
    {new : Option Text} :
    Returns anyAnswer (expandExecutable executable paths) () new () ↔
      (new = some executable ∧ executable.head? = some '/') ∨ new = none ∨
        ∃ ps, paths = some ps ∧ ∃ path ∈ ps, new = some (endingSlash path ++ executable) := by
  unfold expandExecutable
  rw [returns_bind_iff]
  constructor
  · intro ⟨found, _, habs, h⟩
    rw [isAbsoluteFile_returns_iff] at habs
    cases found with
    | true =>
        rw [if_pos rfl, returns_pure] at h
        exact Or.inl ⟨h.1, habs rfl⟩
    | false =>
        rw [if_neg Bool.false_ne_true] at h
        cases paths with
        | none => exact Or.inr (Or.inl (returns_pure.mp h).1)
        | some ps =>
            apply Or.inr
            cases expandLoop_returns_iff.mp h with
            | inl hnone => exact Or.inl hnone
            | inr hpath => exact Or.inr ⟨ps, rfl, hpath⟩
  · intro h
    rcases h with ⟨hnew, habs⟩ | h
    · refine ⟨true, (), isAbsoluteFile_returns_iff.mpr fun _ => habs, ?_⟩
      rw [if_pos rfl, returns_pure]
      exact ⟨hnew, rfl⟩
    · refine ⟨false, (), isAbsoluteFile_returns_iff.mpr (by simp), ?_⟩
      rw [if_neg Bool.false_ne_true]
      cases paths with
      | none =>
          rw [returns_pure]
          exact ⟨h.resolve_right (by simp), rfl⟩
      | some ps =>
          apply expandLoop_returns_iff.mpr
          apply h.imp_right
          intro ⟨ps', hps, hpath⟩
          cases hps
          exact hpath

theorem splitCommand_returns_iff {memory : Memory} {file command : Text} {sec : CString}
    {position : Int} {newargv : Option (List Text)} :
    Returns anyAnswer (splitCommand memory file sec position command) () newargv () ↔
      Ini.intOption memory file sec position "allow_word_expansion" ≠ 0 ∨
        newargv = some (explodeString command ' ') := by
  rw [splitCommand]
  split
  next hexpand =>
    exact iff_of_true (.call trivial .ret) (Or.inl hexpand)
  next hexpand =>
    rw [returns_pure]
    simp [hexpand]

theorem resolve_returns_iff {memory : Memory} {file : Text} {sec : CString} {position : Int}
    {newargv : Option (List Text)} {word : Text} {words : List Text} :
    Returns anyAnswer (resolve memory file sec position newargv) () (word :: words) () ↔
      ∃ w, newargv = some (w :: words) ∧
        (word = w ∨ ∃ paths, pathList memory file sec position = some paths ∧
          ∃ path ∈ paths, word = endingSlash path ++ w) := by
  unfold resolve
  split
  next w ws =>
    rw [returns_bind_iff]
    constructor
    · intro ⟨new, _, hnew, h⟩
      rw [returns_pure] at h
      have hcons := List.cons.inj h.1
      refine ⟨w, by rw [hcons.2], ?_⟩
      rcases expandExecutable_returns_iff.mp hnew with ⟨habs, -⟩ | hnone | ⟨ps, hps, path, hpath, hnew⟩
      · exact Or.inl (by rw [hcons.1, habs, Option.getD_some])
      · exact Or.inl (by rw [hcons.1, hnone, Option.getD_none])
      · exact Or.inr ⟨ps, hps, path, hpath, by rw [hcons.1, hnew, Option.getD_some]⟩
    · intro ⟨w', hw, hword⟩
      cases hw
      cases hword with
      | inl hword =>
          refine ⟨none, (), expandExecutable_returns_iff.mpr (Or.inr (Or.inl rfl)), ?_⟩
          rw [returns_pure, Option.getD_none, hword]
          exact ⟨rfl, rfl⟩
      | inr hword =>
          obtain ⟨ps, hps, path, hpath, hword⟩ := hword
          refine ⟨some word, (), expandExecutable_returns_iff.mpr (Or.inr (Or.inr
            ⟨ps, hps, path, hpath, by rw [hword]⟩)), ?_⟩
          rw [returns_pure, Option.getD_some]
          exact ⟨rfl, rfl⟩
  next hnot =>
    constructor
    · intro h
      cases h with
      | @call _ _ _ r => exact r.elim
    · intro ⟨w, hw, _⟩
      exact absurd hw (hnot w words)

theorem prepare_returns_iff {memory : Memory} {file command word : Text} {sec : CString}
    {position : Int} :
    (∃ words, Returns anyAnswer (prepare memory file sec position command) () (word :: words)
        ()) ↔
      Names memory file sec position command word := by
  constructor
  · intro ⟨words, h⟩
    obtain ⟨_, _, -, h⟩ := returns_bind_iff.mp h
    obtain ⟨_, _, -, h⟩ := returns_bind_iff.mp h
    obtain ⟨newargv, _, hsplit, hresolve⟩ := returns_bind_iff.mp h
    obtain ⟨w, hw, hword⟩ := resolve_returns_iff.mp hresolve
    refine ⟨w, (splitCommand_returns_iff.mp hsplit).imp_right fun hargv => ?_, hword⟩
    rw [hw] at hargv
    rw [← Option.some.inj hargv, List.head?_cons]
  · intro ⟨w, hfirst, hword⟩
    have hargv : ∃ words, Returns anyAnswer (splitCommand memory file sec position command) ()
        (some (w :: words)) () := by
      cases hfirst with
      | inl hexpand => exact ⟨[], splitCommand_returns_iff.mpr (Or.inl hexpand)⟩
      | inr hhead =>
          obtain ⟨words, hwords⟩ := List.head?_eq_some_iff.mp hhead
          exact ⟨words, splitCommand_returns_iff.mpr (Or.inr (by rw [hwords]))⟩
    obtain ⟨words, hsplit⟩ := hargv
    have humask := @setUmask_returns anyAnswer (fun _ _ => trivial) memory file sec position
    refine ⟨words, returns_bind humask ?_⟩
    apply returns_bind (setEnvironment_returns (fun _ _ _ => trivial) _)
    apply returns_bind hsplit
    exact resolve_returns_iff.mpr ⟨w, rfl, hword⟩

theorem prepare_not_execve {memory : Memory} {file command : Text} {sec : CString}
    {position : Int} {word : Text} {argv : List Text} :
    ¬ Reaches anyAnswer (prepare memory file sec position command) () (.execve word argv)
      () := by
  have hplain : ∀ c, Plain c → ∀ w argv, c ≠ .execve w argv := by
    intro c hc w argv hexec
    simp [hexec, Plain] at hc
  exact not_reaches_of_only (prepare_only hplain (setUmask_only (by simp))
    (splitCommand_only (by simp))) fun hexec => hexec word argv rfl

theorem executableIsAllowed_returns_iff {memory : Memory} {file executable : Text}
    {sec : CString} {position : Int} {b : Bool} :
    Returns anyAnswer (executableIsAllowed memory file sec position executable) () b () ↔
      ∃ items, readExecutables memory file sec position = some items ∧
        b = items.contains executable := by
  rw [executableIsAllowed]
  split
  next hread =>
    constructor
    · intro h
      cases h with
      | @call _ _ _ r => exact r.elim
    · intro h
      obtain ⟨items, hitems, _⟩ := h
      cases hread.symm.trans hitems
  next arr hread =>
    rw [returns_pure]
    constructor
    · intro h
      exact ⟨arr, hread, h.1⟩
    · intro h
      obtain ⟨items, hitems, hb⟩ := h
      cases hread.symm.trans hitems
      exact ⟨hb, rfl⟩

theorem runAllowed_reaches_iff {memory : Memory} {file : Text} {sec : CString} {position : Int}
    {newargv argv : List Text} {word : Text} :
    Reaches anyAnswer (runAllowed memory file sec position newargv) () (.execve word argv) () ↔
      word = newargv.headD [] ∧ argv = newargv ∧
        ∃ items, readExecutables memory file sec position = some items ∧ word ∈ items := by
  constructor
  · intro h
    rcases reaches_bind_cases h with h | ⟨b, _, hb, h⟩
    · refine absurd h (not_reaches_of_only
        (executableIsAllowed_only (P := Plain) trivial _ _ _ _ _) ?_)
      exact id
    · obtain ⟨items, hitems, hb⟩ := executableIsAllowed_returns_iff.mp hb
      cases b with
      | true =>
          rw [if_pos rfl] at h
          have hcall := (reaches_perform.mp h).1
          simp only [Call.execve.injEq] at hcall
          rw [hcall.1]
          exact ⟨rfl, hcall.2, items, hitems, List.contains_iff_mem.mp hb.symm⟩
      | false =>
          rw [if_neg Bool.false_ne_true] at h
          cases h with
          | @later _ _ _ r => exact r.elim
  · intro ⟨hword, hargv, items, hitems, hmem⟩
    subst hargv
    apply reaches_bind_right (executableIsAllowed_returns_iff.mpr ⟨items, hitems, rfl⟩)
    rw [if_pos (List.contains_iff_mem.mpr (hword ▸ hmem)), hword]
    exact .here

theorem readExecutables_of_answer {memory : Memory} {file : Text} {sec : CString}
    {position : Int} {a : Ini.Answer}
    (h : Ini.scanLoop sec (cstring memory "executables".toList) 1024 Ini.Scan.initial
      (Ini.fseek file (asInt position)) = a) :
    readExecutables memory file sec position =
      if a.ret = 0 then none else some (explodeString (cText a.buffer) ',') := by
  subst h
  rfl

theorem explodeString_nil : explodeString [] ',' = [] := by decide

/-- A word is among the items read exactly if it is read behind a `=` taken for the key. -/
theorem mem_readExecutables_iff {memory : Memory} {file word : Text} {sec : CString}
    {position : Int} :
    (∃ items, readExecutables memory file sec position = some items ∧ word ∈ items) ↔
      ∃ t r, Ini.fseek file (asInt position) = t ++ '=' :: r ∧
        Ini.TakesKey sec (cstring memory "executables".toList) t ∧ word ∈ itemsRead r := by
  constructor
  · intro ⟨items, hitems, hword⟩
    cases Ini.lookup_cases sec (cstring memory "executables".toList)
      (Ini.fseek file (asInt position)) with
    | value t r htext ht =>
        have hscan := Ini.takesKey_scanLoop _ _ 1024 ht r
        rw [← htext] at hscan
        rw [readExecutables_of_answer hscan] at hitems
        split at hitems
        · cases hitems
        · cases hitems
          exact ⟨t, r, htext, ht, hword⟩
    | «section» t r htext ht =>
        have hscan := Ini.meetsSection_scanLoop _ _ 1024 ht r
        rw [← htext] at hscan
        rw [readExecutables_of_answer hscan] at hitems
        cases hitems
        exact absurd hword (by simp [cText, explodeString_nil])
    | exhausted hend =>
        rw [readExecutables_of_answer (Ini.exhausted_scanLoop _ _ 1024 hend)] at hitems
        cases hitems
  · intro ⟨t, r, htext, ht, hword⟩
    have hscan := Ini.takesKey_scanLoop _ _ 1024 ht r
    rw [← htext] at hscan
    rw [readExecutables_of_answer hscan]
    refine ⟨itemsRead r, if_neg ?_, hword⟩
    intro hret
    rw [(Ini.readValue_ret 1024 '=' false [] r).1, Int.natCast_eq_zero,
      List.length_eq_zero_iff] at hret
    rw [itemsRead, hret] at hword
    exact absurd hword (by simp [cText, explodeString_nil])

/-- Where main can come to `execve` in the selected section. -/
theorem execve_reached_iff {memory : Memory} {file user group command body word : Text}
    {sec : CString} (h : Ini.selectSection memory file user group = some (sec, body)) :
    (∃ argv, argv.head? = some word ∧
        Reaches anyAnswer (lshRun memory file user group command) () (.execve word argv) ()) ↔
      Names memory file sec (Ini.sectionPosition file body sec) command word ∧
        ∃ items, readExecutables memory file sec (Ini.sectionPosition file body sec) =
          some items ∧ word ∈ items := by
  rw [lshRun_section h]
  constructor
  · intro ⟨argv, hhead, hreach⟩
    rcases reaches_bind_cases hreach with hreach | ⟨newargv, _, hret, hreach⟩
    · exact absurd hreach prepare_not_execve
    · obtain ⟨-, hargv, hitems⟩ := runAllowed_reaches_iff.mp hreach
      subst hargv
      obtain ⟨words, hwords⟩ := List.head?_eq_some_iff.mp hhead
      subst hwords
      exact ⟨prepare_returns_iff.mp ⟨words, hret⟩, hitems⟩
  · intro ⟨hnames, hitems⟩
    obtain ⟨words, hret⟩ := prepare_returns_iff.mpr hnames
    refine ⟨word :: words, rfl, reaches_bind_right hret ?_⟩
    exact runAllowed_reaches_iff.mpr ⟨rfl, rfl, hitems⟩

/-- The line for the key stands below the header at the place sought, the letters are
counted from its start, and nothing else stands before its `=`. -/
def ReadsLine (sec key : CString) (text body t : Text) : Prop :=
  ∃ B w, text = '[' :: (sec.text ++ ']' :: body) ∧
    t = '[' :: (sec.text ++ ']' :: (B ++ '\n' :: w)) ∧ Ini.NoHeader B ∧ '\n' ∉ w ∧
    Ini.SeeksKey sec key ('[' :: (sec.text ++ ']' :: (B ++ ['\n']))) (some 0) ∧
    Ini.SeeksKey sec key t (some key.text.length) ∧ (trim w).length = key.text.length

/-- The value is a string that fits the buffer, and is ended by a newline or its end. -/
def Fits (r : Text) : Prop :=
  nul ∉ Ini.valuePart r ∧ (Ini.valuePart r).length ≤ 1024 ∧ ('\n' ∈ r ∨ 1024 ≤ r.length)

def OnlyListed (memory : Memory) (file user group command : Text) : Prop :=
  ∀ word argv, argv.head? = some word →
    Reaches anyAnswer (lshRun memory file user group command) () (.execve word argv) () →
    ∃ sec body, Ini.selectSection memory file user group = some (sec, body) ∧ Listed body word

theorem lineIn_of_readsLine {sec key : CString} {text body t r : Text}
    (hkey : trim key.text = key.text) (h : ReadsLine sec key text body t)
    (htext : text = t ++ '=' :: r) : Ini.LineIn body key.text r := by
  obtain ⟨B, w, hbody, rfl, hheader, hw, hstart, hfull, hlen⟩ := h
  have hline : Ini.LineStart ('[' :: (sec.text ++ ']' :: (B ++ ['\n']))) := by
    refine Or.inl ?_
    have hlast := Ini.lastChar_snoc ('[' :: (sec.text ++ ']' :: B)) '\n'
    simpa using hlast
  have hfull' : Ini.SeeksKey sec key ('[' :: (sec.text ++ ']' :: (B ++ ['\n'])) ++ w)
      (some key.text.length) := by
    simpa using hfull
  obtain ⟨hhead, htrim⟩ := Ini.spelled_of_counts hkey hline hw hstart hfull' hlen
  refine ⟨B, w, ?_, hheader, hw, hhead, htrim⟩
  rw [hbody] at htext
  simpa using htext

theorem itemsRead_of_fits {r : Text} (h : Fits r) :
    itemsRead r = explodeString (Ini.valuePart r) ',' := by
  obtain ⟨hnul, hlen, hend⟩ := h
  have hcalm : ∀ u w, '=' :: r = u ++ nul :: '#' :: w → '\n' ∉ u → 1024 < 0 + u.length := by
    intro u w hu hnl
    cases u with
    | nil => exact absurd (List.cons.inj hu).1 (by decide)
    | cons c u =>
        -- the NUL before a comment would be part of the value
        refine absurd ?_ hnul
        have hnl' : ∀ d ∈ u, d ≠ '\n' := fun d hd hc => hnl (hc ▸ List.mem_cons_of_mem c hd)
        have hr : r = u ++ nul :: '#' :: w := (List.cons.inj hu).2
        rw [Ini.valuePart, hr, List.takeWhile_append_of_pos (by simpa using hnl')]
        have hne : nul ≠ '\n' := by decide
        simp [hne]
  have hbuffer := @Ini.readValue_buffer 1024 '=' [] r (by decide) (Nat.zero_le _) hcalm
    (by simpa using hend)
  rw [itemsRead, hbuffer, List.nil_append, List.length_nil, Nat.sub_zero,
    List.take_of_length_le hlen, cText_eq_self hnul]

theorem listed_of_read {memory : Memory} {sec : CString} {text body t r word : Text}
    (hline : ReadsLine sec (cstring memory "executables".toList) text body t)
    (hfits : Fits r) (htext : text = t ++ '=' :: r) (hword : word ∈ itemsRead r) :
    Listed body word := by
  have hkey : (cstring memory "executables".toList).text = "executables".toList := by
    rw [cstring_text]
    decide
  have hin := lineIn_of_readsLine (by rw [hkey]; decide) hline htext
  rw [hkey] at hin
  rw [itemsRead_of_fits hfits] at hword
  obtain ⟨piece, hpiece, hstrip⟩ := mem_explodeString hword
  exact ⟨r, hin, piece, hpiece, by rw [← hstrip, trim_stripString]⟩

/-- Where a `=` is taken for the one of `executables`, with a value behind it, its line is
one of the selected section, read as it is written, and so is the value. -/
def ReadsStraight (memory : Memory) (file user group : Text) : Prop :=
  ∀ sec body, Ini.selectSection memory file user group = some (sec, body) →
    let text := Ini.fseek file (asInt (Ini.sectionPosition file body sec))
    let key := cstring memory "executables".toList
    ∀ t r, text = t ++ '=' :: r → Ini.TakesKey sec key t → r.head? ≠ some '\n' →
      ReadsLine sec key text body t ∧ Fits r

theorem itemsRead_newline (r : Text) : itemsRead ('\n' :: r) = [] := by
  have hempty : (Ini.readValue 1024 '=' false [] ('\n' :: r)).buffer = [] := by
    simp [Ini.readValue]
  rw [itemsRead, hempty]
  simp [cText, explodeString_nil]

/-- Whatever comes before `execve`, where the list is read straight only what is listed is
executed. -/
theorem onlyListed_of_readsStraight (memory : Memory) (file user group command : Text)
    (h : ReadsStraight memory file user group) : OnlyListed memory file user group command := by
  intro word argv hhead hreach
  cases hselect : Ini.selectSection memory file user group with
  | none =>
      rw [lshRun, hselect] at hreach
      cases hreach with
      | @later _ _ _ r => exact r.elim
  | some selected =>
      obtain ⟨sec, body⟩ := selected
      obtain ⟨-, hitems⟩ := (execve_reached_iff hselect).mp ⟨argv, hhead, hreach⟩
      obtain ⟨t, r, htext, ht, hword⟩ := mem_readExecutables_iff.mp hitems
      have hvalue : r.head? ≠ some '\n' := by
        intro hnl
        obtain ⟨r', rfl⟩ := List.head?_eq_some_iff.mp hnl
        rw [itemsRead_newline] at hword
        cases hword
      obtain ⟨hline, hfits⟩ := h sec body hselect t r htext ht hvalue
      exact ⟨sec, body, rfl, listed_of_read hline hfits htext hword⟩

def listLine : Text := "[bob]\nexecutables = /bin/ls, /bin/sh\n".toList

theorem listLine_select :
    Ini.selectSection (fun _ _ => nul) listLine "bob".toList "users".toList =
      some (cstring (fun _ _ => nul) "bob".toList,
        "\nexecutables = /bin/ls, /bin/sh\n".toList) := by
  have huser : Ini.iniparserHasSection listLine (cstring (fun _ _ => nul) "bob".toList) =
      some "\nexecutables = /bin/ls, /bin/sh\n".toList := by decide +kernel
  simp only [Ini.selectSection, huser]

theorem readsStraight_listLine :
    ReadsStraight (fun _ _ => nul) listLine "bob".toList "users".toList := by
  intro sec body hselect text key t r htext htake _
  cases listLine_select.symm.trans hselect
  have hfile : text = "[bob]\nexecutables ".toList ++ '=' :: " /bin/ls, /bin/sh\n".toList := by
    decide +kernel
  obtain ⟨rfl, -, rfl⟩ := (List.append_cons_inj_of_notMem (by decide) (by decide)).mp
    (hfile.symm.trans htext)
  have hsec : (cstring (fun _ _ => nul) "bob".toList).text = "bob".toList := by decide
  have hkey : key.text = "executables".toList := by decide
  have hheader : Ini.TakesHeader (cstring (fun _ _ => nul) "bob".toList) "[bob".toList := by
    have hstart := @Ini.takesHeader_start (cstring (fun _ _ => nul) "bob".toList) (by decide)
      (by decide)
    rwa [hsec] at hstart
  have hstart : Ini.SeeksKey (cstring (fun _ _ => nul) "bob".toList) key "[bob]\n".toList
      (some 0) :=
    .blank (.start hheader) (by decide) (by decide)
  have hword := Ini.seeksKey_word (w := "executables".toList) (u := []) hstart (by simpa using hkey)
    (by decide)
  have hfull : Ini.SeeksKey (cstring (fun _ _ => nul) "bob".toList) key
      "[bob]\nexecutables ".toList (some 11) :=
    .blank hword (by decide) (by decide)
  refine ⟨⟨[], "executables ".toList, by decide +kernel, by decide, ?_, by decide, hstart, hfull,
    by decide⟩, by decide, by decide, Or.inl (by decide)⟩
  intro B₁ I B₂ hB
  simp at hB

theorem onlyListed_of_readsStraight_listLine :
    (∃ argv, argv.head? = some "/bin/sh".toList ∧
      Reaches anyAnswer (lshRun (fun _ _ => nul) listLine "bob".toList "users".toList
        "/bin/sh -c ls".toList) () (.execve "/bin/sh".toList argv) ()) ∧
    OnlyListed (fun _ _ => nul) listLine "bob".toList "users".toList "/bin/sh -c ls".toList := by
  refine ⟨?_, onlyListed_of_readsStraight _ _ _ _ _ readsStraight_listLine⟩
  refine (execve_reached_iff listLine_select).mpr
    ⟨⟨"/bin/sh".toList, Or.inr (by decide), Or.inl rfl⟩, ["/bin/ls".toList, "/bin/sh".toList], ?_⟩
  decide +kernel

/-- The only option of the section is one whose name begins like that of the list. -/
def execLine : Text := "[bob]\nexec=/bin/sh\n".toList

theorem execLine_select :
    Ini.selectSection (fun _ _ => nul) execLine "bob".toList "users".toList =
      some (cstring (fun _ _ => nul) "bob".toList, "\nexec=/bin/sh\n".toList) := by
  have huser : Ini.iniparserHasSection execLine (cstring (fun _ _ => nul) "bob".toList) =
      some "\nexec=/bin/sh\n".toList := by decide +kernel
  simp only [Ini.selectSection, huser]

/-- The value of another key authorises a command. -/
theorem onlyListed_exec_line :
    ¬ OnlyListed (fun _ _ => nul) execLine "bob".toList "users".toList "/bin/sh".toList := by
  intro honly
  have hitems : readExecutables (fun _ _ => nul) execLine
      (cstring (fun _ _ => nul) "bob".toList)
      (Ini.sectionPosition execLine "\nexec=/bin/sh\n".toList
        (cstring (fun _ _ => nul) "bob".toList)) = some ["/bin/sh".toList] := by
    decide +kernel
  obtain ⟨argv, hhead, hreach⟩ := (@execve_reached_iff _ _ _ _ "/bin/sh".toList _
    "/bin/sh".toList _ execLine_select).mpr ⟨⟨"/bin/sh".toList, Or.inr (by decide), Or.inl rfl⟩,
      _, hitems, List.mem_singleton_self _⟩
  obtain ⟨sec, body, hselect, r, ⟨B, K, hbody, -, -, -, hK⟩, -⟩ :=
    honly _ argv hhead hreach
  cases execLine_select.symm.trans hselect
  have hu : 'u' ∈ K := mem_of_mem_trim (by rw [hK]; decide)
  have hmem : 'u' ∈ "\nexec=/bin/sh\n".toList := by
    rw [hbody]
    simp [hu]
  exact absurd hmem (by decide)

end Jailkit.Lsh
