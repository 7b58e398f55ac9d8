import Jailkit.Socketd.Sockets

/-!
Which sockets jk_socketd opens, for every configuration file: the sections are taken in order,
a name that has a socket is passed over, and there is an upper limit.
-/
namespace Jailkit.Socketd

open Ini Tools

def sectionNames : Nat → Text → List Text
  | 0, _ => []
  | fuel + 1, unread =>
      match iniparserNextSection unread with
      | none => []
      | some (buf, unread) => cText buf :: sectionNames fuel unread

def namesOf (file : Text) : List Text := sectionNames (file.length + 1) file

/-- The names that get a socket, when those that are `seen` have one. -/
def newNames (ok : Text → Bool) : List Text → List Text → List Text
  | _, [] => []
  | seen, name :: names =>
      if name ∈ seen then newNames ok seen names
      else if ok name then name :: newNames ok (seen ++ [name]) names
      else newNames ok seen names

/-- The range checks have been made. -/
structure Ranged (r : FinalRates) : Prop where
  baseLow : 10 ≤ r.base
  baseHigh : r.base ≤ 1000000
  peakLow : 100 ≤ r.peak
  peakHigh : r.peak ≤ 10000000
  covers : r.base ≤ r.peak ∨ r.peak = 2048
  interval : r.interval = .nan ∨ ∃ q, r.interval = .seconds q ∧ hundredth ≤ q ∧ q ≤ 60

section

variable {memory : Memory} {scanFloat : Text → Option Interval} {opens : NewSocketlink → Bool}
  {file unread rest buf : Text} {ok : Text → Bool} {s : Sockets}

theorem newNames_eq (ok : Text → Bool) (names seen : List Text) :
    (names.foldl (fun seen name => if name ∈ seen then seen else seen ++ [name]) seen).filter ok =
      seen.filter ok ++ newNames ok (seen.filter ok) names := by
  induction names generalizing seen with
  | nil => simp [newNames]
  | cons name names ih =>
      rw [List.foldl_cons, ih, newNames]
      by_cases hseen : name ∈ seen
      · rw [if_pos hseen]
        by_cases hok : ok name = true
        · rw [if_pos (List.mem_filter.mpr ⟨hseen, hok⟩)]
        · rw [if_neg fun h => hok (List.mem_filter.mp h).2, if_neg hok]
      · rw [if_neg hseen, if_neg fun h => hseen (List.mem_filter.mp h).1, List.filter_append]
        by_cases hok : ok name = true
        · simp [hok]
        · simp [hok]

theorem newNames_firsts (ok : Text → Bool) (names : List Text) :
    newNames ok [] names = (firsts names).filter ok := by
  rw [firsts, newNames_eq]
  rfl

/-- What is left unread after a name is the end of what was unread before. -/
theorem nextLoop_behind {n : NextScan} (h : nextLoop n unread = some (buf, rest)) :
    ∃ front, unread = front ++ rest := by
  induction unread generalizing n with
  | nil => cases h
  | cons c cs ih =>
      rw [nextLoop] at h
      split at h
      next n' _ =>
        obtain ⟨front, rfl⟩ := ih h
        exact ⟨c :: front, rfl⟩
      next =>
        cases h
        exact ⟨[c], rfl⟩

theorem haveSocket_iff {path : Text} {sl : List NewSocketlink} :
    haveSocket path sl = true ↔ path ∈ sl.map (·.inpath) := by
  simp [haveSocket]

theorem checkPeak_range (base peak peek : Nat) :
    100 ≤ checkPeak base peak peek ∧ checkPeak base peak peek ≤ 10000000 := by
  rw [checkPeak]
  by_cases hpeak : peakOutOfRange peak base
  · rw [if_pos hpeak]
    by_cases hpeek : peakOutOfRange peek base
    · rw [if_pos hpeek]
      omega
    · rw [if_neg hpeek]
      rw [peakOutOfRange] at hpeek
      omega
  · rw [if_neg hpeak]
    rw [peakOutOfRange] at hpeak
    omega

theorem rangeChecks_ranged (w : Written) : Ranged (rangeChecks w) := by
  have hbase := checkBase_cases w.base
  have hpeak := checkPeak_cases (checkBase w.base) w.peak w.peek
  have hrange := checkPeak_range (checkBase w.base) w.peak w.peek
  rw [rangeChecks]
  refine ⟨?_, ?_, hrange.1, hrange.2, ?_, ?_⟩
  · simp only; omega
  · simp only; omega
  · exact hpeak.imp And.left And.left
  · exact (checkInterval_cases w.interval).imp And.right And.right

theorem take_opened (hfull : s.sl.length ≤ maxSockets) :
    (s.sl.map (·.inpath)).take maxSockets = s.sl.map (·.inpath) :=
  List.take_of_length_le (by simpa using hfull)

/-- A pass keeps the links within the limit and their rates in range. -/
theorem configLoop_ranged (fuel : Nat) (hfull : s.sl.length ≤ maxSockets)
    (hranged : ∀ link ∈ s.sl, Ranged link.rates) :
    (configLoop memory scanFloat opens file fuel unread s).sl.length ≤ maxSockets ∧
      ∀ link ∈ (configLoop memory scanFloat opens file fuel unread s).sl, Ranged link.rates := by
  induction fuel generalizing unread s with
  | zero => exact ⟨hfull, hranged⟩
  | succ fuel ih =>
      rw [configLoop]
      split
      · exact ⟨hfull, hranged⟩
      · simp only
        split
        · exact ih hfull hranged
        · split
          · exact ⟨hfull, hranged⟩
          next hlast =>
            split
            · refine ih ?_ (List.forall_mem_append.mpr
                ⟨hranged, List.forall_mem_singleton.mpr (rangeChecks_ranged _)⟩)
              rw [List.length_append, List.length_singleton]
              omega
            · exact ih hfull hranged

/-- Each pass goes on behind the name it has found. -/
theorem configLoop_names (hok : ∀ link, opens link = ok link.inpath) (fuel : Nat)
    (hfile : ∃ front, file = front ++ unread) (hfull : s.sl.length ≤ maxSockets) :
    (configLoop memory scanFloat opens file fuel unread s).sl.map (·.inpath) =
      (s.sl.map (·.inpath) ++
        newNames ok (s.sl.map (·.inpath)) (sectionNames fuel unread)).take maxSockets := by
  induction fuel generalizing unread s with
  | zero => rw [configLoop, sectionNames, newNames, List.append_nil, take_opened hfull]
  | succ fuel ih =>
      rw [configLoop, sectionNames]
      cases hnext : iniparserNextSection unread with
      | none => rw [newNames, List.append_nil, take_opened hfull]
      | some found =>
          obtain ⟨buf, rest⟩ := found
          obtain ⟨passed, rfl⟩ := nextLoop_behind hnext
          obtain ⟨front, hfront⟩ := hfile
          have hbehind : file = (front ++ passed) ++ rest := by rw [hfront, List.append_assoc]
          simp only [cstring_text, setPosition_back hbehind, newNames]
          by_cases hseen : cText buf ∈ s.sl.map (·.inpath)
          · simp only [haveSocket_iff.mpr hseen, if_pos hseen, if_true]
            exact ih ⟨_, hbehind⟩ hfull
          · have hhave : ¬ haveSocket (cText buf) s.sl = true := fun h => hseen (haveSocket_iff.mp h)
            simp only [if_neg hhave, if_neg hseen]
            by_cases hlast : s.sl.length = maxSockets
            · rw [if_pos hlast, List.take_append_of_le_length (by simp [hlast]), take_opened hfull]
            · rw [if_neg hlast]
              simp only [hok]
              by_cases hopen : ok (cText buf) = true
              · simp only [if_pos hopen]
                generalize hlink : NewSocketlink.mk (cText buf) (rangeChecks (readSection memory
                  scanFloat file (cstring memory buf) (file.length - rest.length))) = link
                have hpath : link.inpath = cText buf := by rw [← hlink]
                have hmore := @ih rest ⟨s.calls ++ [link], s.sl ++ [link]⟩ ⟨_, hbehind⟩
                  (by rw [List.length_append, List.length_singleton]; omega)
                simpa [hpath, List.append_assoc] using hmore
              · simp only [if_neg hopen]
                exact ih ⟨_, hbehind⟩ hfull

end

theorem readConfig_ranged (memory : Memory) (scanFloat : Text → Option Interval)
    (opens : NewSocketlink → Bool) (file : Text) :
    (readConfig memory scanFloat opens file).sl.length ≤ maxSockets ∧
      ∀ link ∈ (readConfig memory scanFloat opens file).sl, Ranged link.rates :=
  configLoop_ranged _ (Nat.zero_le _) fun _ h => absurd h List.not_mem_nil

/-- The sockets are those of the first names that can be opened, one for each name and not
more than there is room for; their rates are in range. -/
theorem readConfig_opens (memory : Memory) (scanFloat : Text → Option Interval)
    (opens : NewSocketlink → Bool) (ok : Text → Bool) (file : Text)
    (hok : ∀ link, opens link = ok link.inpath) :
    (readConfig memory scanFloat opens file).sl.map (·.inpath) =
        ((firsts (namesOf file)).filter ok).take maxSockets ∧
      ∀ link ∈ (readConfig memory scanFloat opens file).sl, Ranged link.rates := by
  refine ⟨?_, (readConfig_ranged memory scanFloat opens file).2⟩
  have hnames := @configLoop_names memory scanFloat opens file file ok ⟨[], []⟩ hok
    (file.length + 1) ⟨[], rfl⟩ (Nat.zero_le _)
  rw [List.map_nil, List.nil_append, newNames_firsts] at hnames
  exact hnames

/-- A name twice, and one that cannot be opened. -/
theorem readConfig_opens_two :
    (readConfig (fun _ _ => nul) (fun _ => none) (fun link => link.inpath != "/b".toList)
        "[/a]\n[/b]\nbase=20\n[/a]\n[/c]\n".toList).sl.map (·.inpath) =
      ["/a".toList, "/c".toList] := by
  have h := readConfig_opens (fun _ _ => nul) (fun _ => none)
    (fun link => link.inpath != "/b".toList) (fun path => path != "/b".toList)
    "[/a]\n[/b]\nbase=20\n[/a]\n[/c]\n".toList fun _ => rfl
  rw [h.1]
  decide +kernel

end Jailkit.Socketd
