import Jailkit.Ini.RoundTrip
import Jailkit.Socketd.Config
import Jailkit.Tools.LogSocket

/-!
The sockets that jk_socketd opens from its configuration, and that they are those that
jk_init has written there.
-/
namespace Jailkit.Socketd

open Ini Tools

structure NewSocketlink where
  inpath : Text
  rates : FinalRates
  deriving DecidableEq

def maxSockets : Nat := 128

def haveSocket (path : Text) (sl : List NewSocketlink) : Bool := sl.any fun s => s.inpath == path

/-- `iniparser_set_position`: a position before the file leaves the stream where it is. -/
def iniparserSetPosition (file unread : Text) (position : Int) : Text :=
  if position < 0 then unread else file.drop position.toNat

/-- The calls of `new_socketlink`, and those that returned a socket. -/
structure Sockets where
  calls : List NewSocketlink
  sl : List NewSocketlink

def configLoop (memory : Memory) (scanFloat : Text → Option Interval)
    (opens : NewSocketlink → Bool) (file : Text) : Nat → Text → Sockets → Sockets
  | 0, _, s => s
  | fuel + 1, unread, s =>
      match iniparserNextSection unread with
      | none => s
      | some (buf, unread) =>
          let tmp := cstring memory buf
          if haveSocket tmp.text s.sl then configLoop memory scanFloat opens file fuel unread s
          else if s.sl.length = maxSockets then s
          else
            let prevpos : Int := file.length - unread.length
            let secpos := prevpos - tmp.text.length - 4
            let link : NewSocketlink :=
              ⟨tmp.text, rangeChecks (readSection memory scanFloat file tmp prevpos)⟩
            let unread := iniparserSetPosition file unread secpos
            let unread := iniparserSetPosition file unread prevpos
            configLoop memory scanFloat opens file fuel unread
              ⟨s.calls ++ [link], if opens link then s.sl ++ [link] else s.sl⟩

/-- Each pass of the loop reads a byte at least. -/
def readConfig (memory : Memory) (scanFloat : Text → Option Interval)
    (opens : NewSocketlink → Bool) (file : Text) : Sockets :=
  configLoop memory scanFloat opens file (file.length + 1) file ⟨[], []⟩

def sockPath (chroot : Text) : Text := chroot ++ "/dev/log".toList

def plainEntry (key value : Text) (hne : key ≠ [])
    (hkey : ∀ c ∈ key, isspace c = false ∧ c ≠ '=' ∧ c ≠ '[' ∧ c ≠ '#' ∧ c ≠ nul)
    (hvalue : ∀ c ∈ value, c ≠ '[' ∧ c ≠ '\n' ∧ c ≠ nul) : Ini.Entry where
  indent := []
  key := key
  gap := []
  value := value
  indentPadding := fun _ hc => absurd hc List.not_mem_nil
  gapPadding := fun _ hc => absurd hc List.not_mem_nil
  keyNonempty := hne
  keyPlain := hkey
  valuePlain := hvalue

def baseEntry : Ini.Entry :=
  plainEntry "base".toList "512".toList (by decide) (forall_of_all (by decide))
    (forall_of_all (by decide))

def peakEntry : Ini.Entry :=
  plainEntry "peak".toList "2048".toList (by decide) (forall_of_all (by decide))
    (forall_of_all (by decide))

def intervalEntry : Ini.Entry :=
  plainEntry "interval".toList "10".toList (by decide) (forall_of_all (by decide))
    (forall_of_all (by decide))

def rateLines : Text := '\n' :: [baseEntry, peakEntry, intervalEntry].flatMap Ini.Entry.render

/-- The rates that `main` finds in an entry of jk_init. -/
def logged (chroot : Text) : NewSocketlink := ⟨sockPath chroot, ⟨512, 2048, .seconds 10⟩⟩

section

variable {file front unread t chroot : Text} {chroots : List Text} {memory : Memory}
  {scanFloat : Text → Option Interval} {opens : NewSocketlink → Bool}

theorem logEntry_section (chroot : Text) :
    logEntry chroot = '\n' :: '[' :: (sockPath chroot ++ ']' :: rateLines) := by
  have hrates : '\n' :: logRates = rateLines := by decide +kernel
  have hlog : "/dev/log]".toList = "/dev/log".toList ++ [']'] := by decide
  rw [logEntry, logHeader, hrates, hlog, sockPath]
  simp

theorem sockPath_plain (h : LogJail chroot) :
    ∀ c ∈ sockPath chroot, c ≠ '[' ∧ c ≠ ']' ∧ c ≠ '\n' ∧ c ≠ nul := by
  intro c hc
  cases List.mem_append.mp hc with
  | inl hc => exact h.plain c hc
  | inr hc =>
      have hall : ∀ c ∈ "/dev/log".toList, c ≠ '[' ∧ c ≠ ']' ∧ c ≠ '\n' ∧ c ≠ nul :=
        forall_of_all (by decide)
      exact hall c hc

theorem sockPath_ne_nil (chroot : Text) : sockPath chroot ≠ [] := by
  rw [sockPath]
  exact List.append_ne_nil_of_right_ne_nil _ (by decide)

/-- The search for a section runs over comments. -/
theorem nextLoop_comments (h : Comments t) (rest : Text) :
    nextLoop NextScan.initial (t ++ rest) = nextLoop (nameState t none) rest := by
  obtain ⟨ws, hws, rfl⟩ := h
  have hrun : ∀ u : Text, LineStart u →
      nextLoop (nameState u none) ((ws.flatMap fun w => '#' :: (w ++ ['\n'])) ++ rest) =
        nextLoop (nameState (u ++ ws.flatMap fun w => '#' :: (w ++ ['\n'])) none) rest := by
    induction ws with
    | nil =>
        intro u _
        rw [List.flatMap_nil, List.nil_append, List.append_nil]
    | cons w ws ih =>
        intro u hu
        have hidden : Hidden u ('#' :: (w ++ ['\n'])) := ⟨hu, w, rfl, hws w List.mem_cons_self⟩
        rw [List.flatMap_cons, List.append_assoc, nextLoop_hidden hidden,
          ih (fun w' hw' => hws w' (List.mem_cons_of_mem w hw')) _
            (Or.inl (lastChar_hidden hidden)), List.append_assoc]
  exact hrun [] (Or.inr rfl)

theorem next_entry (hpass : ∀ rest, nextLoop NextScan.initial (t ++ rest) =
      nextLoop (nameState t none) rest) (h : LogJail chroot) (rest : Text) :
    iniparserNextSection (t ++ (logEntry chroot ++ rest)) =
      some (sockPath chroot, rateLines ++ rest) := by
  rw [iniparserNextSection, hpass, logEntry_section, List.cons_append, nextLoop_newline,
    List.cons_append, List.append_assoc, List.cons_append,
    nextLoop_header _ (sockPath_ne_nil chroot) (sockPath_plain h)]

/-- Four bytes before the end of the name the stream is one or two newlines before the
header. -/
theorem fseek_entry {name : Text} (hfront : EndsLine front)
    (hfile : file = front ++ '\n' :: '[' :: (name ++ ']' :: unread)) :
    ∃ A, (A = ['\n'] ∨ A = ['\n', '\n']) ∧
      fseek file ((file.length - unread.length : Int) - name.length - 4) =
        A ++ '[' :: (name ++ ']' :: unread) := by
  have hlen : (file.length - unread.length : Int) - name.length - 4 = front.length - 1 := by
    rw [hfile]
    simp only [List.length_append, List.length_cons]
    push_cast
    omega
  rw [hlen, fseek]
  cases hfront with
  | inl hnil =>
      refine ⟨['\n'], Or.inl rfl, ?_⟩
      rw [hnil, if_pos (by simp), hfile, hnil]
      rfl
  | inr hends =>
      obtain ⟨q, rfl⟩ := hends
      refine ⟨['\n', '\n'], Or.inr rfl, ?_⟩
      have hpos : ((q ++ ['\n']).length - 1 : Int).toNat = q.length := by
        simp
      rw [if_neg (by simp), hpos, hfile, List.append_assoc, List.drop_left]
      rfl

theorem takesHeader_entry {sec : CString} {A : Text} (hA : A = ['\n'] ∨ A = ['\n', '\n'])
    (hne : sec.text ≠ []) (hnl : '\n' ∉ sec.text) : TakesHeader sec (A ++ '[' :: sec.text) := by
  have hone : SeeksHeader sec ['\n'] none :=
    .other .start (shown_of_ne (by decide)) (by decide)
  have htwo : SeeksHeader sec ['\n', '\n'] none :=
    .other hone (shown_of_ne (by decide)) (by decide)
  have hseek : SeeksHeader sec A none := by
    cases hA with
    | inl h => exact h ▸ hone
    | inr h => exact h ▸ htwo
  have hends : EndsLine A := by
    cases hA with
    | inl h => exact Or.inr ⟨[], h⟩
    | inr h => exact Or.inr ⟨['\n'], h⟩
  have hnul : nul ∉ A := by
    cases hA with
    | inl h => rw [h]; decide
    | inr h => rw [h]; decide
  have htakes := takesHeader_of_line (I := []) hne hnul hnl hends (by simp [Blank]) hseek
  rwa [List.append_nil] at htakes

theorem number_of_read {sec key : CString} {position : Int} {w : Text}
    (h : (iniparserGetStringAtPosition file sec key position 25).ret = w.length ∧
      (iniparserGetStringAtPosition file sec key position 25).buffer = w)
    (hret : (w.length : Int) ≠ -1) :
    iniparserGetIntAtPosition file sec key position = sscanf 10 (stripString (cText w)) := by
  rw [iniparserGetIntAtPosition, iniparserGetNumberAtPosition]
  simp only [h.1, h.2, if_neg hret]

theorem float_of_read (scanFloat : Text → Option Interval) {sec key : CString} {position : Int}
    {w : Text}
    (h : (iniparserGetStringAtPosition file sec key position 25).ret = w.length ∧
      (iniparserGetStringAtPosition file sec key position 25).buffer = w)
    (hret : (w.length : Int) ≠ -1) :
    iniparserGetFloatAtPosition scanFloat file sec key position =
      (scanFloat (stripString (cText w))).getD (.seconds 1) := by
  rw [iniparserGetFloatAtPosition]
  simp only [h.1, h.2, if_neg hret]

/-- The rates of jk_init pass the range checks. -/
theorem rangeChecks_logged {w : Written} (hbase : w.base = 512) (hpeak : w.peak = 2048)
    (hinterval : w.interval = .seconds 10) : rangeChecks w = ⟨512, 2048, .seconds 10⟩ := by
  have hinside : checkInterval (.seconds 10) = .seconds 10 := by
    norm_num [checkInterval, Interval.tooShort, Interval.tooLong, hundredth]
  have hpeaks : ¬ peakOutOfRange 2048 512 := by decide
  rw [rangeChecks, hbase, hpeak, hinterval, hinside, checkPeak]
  simp [checkBase, hpeaks]

/-- The reads of `main` in an entry of jk_init give what jk_init has written. -/
theorem readSection_entry (memory : Memory) (hfloat : scanFloat "10".toList = some (.seconds 10))
    (hjail : LogJail chroot) (hfront : EndsLine front) (rest : Text)
    (hfile : file = front ++ (logEntry chroot ++ rest)) :
    rangeChecks (readSection memory scanFloat file (cstring memory (sockPath chroot))
      (file.length - (rateLines ++ rest).length)) = ⟨512, 2048, .seconds 10⟩ := by
  have hplain := sockPath_plain hjail
  have hname : (cstring memory (sockPath chroot)).text = sockPath chroot := by
    rw [cstring_text, cText_eq_self fun h => (hplain _ h).2.2.2 rfl]
  generalize cstring memory (sockPath chroot) = sec at hname
  rw [logEntry_section, List.cons_append, List.cons_append, List.append_assoc,
    List.cons_append, ← hname] at hfile
  obtain ⟨A, hA, hseek⟩ := fseek_entry hfront hfile
  have htakes := takesHeader_entry hA (hname ▸ sockPath_ne_nil chroot)
    (hname ▸ fun h => (hplain _ h).2.2.1 rfl)
  have hread : ∀ (before after : List Ini.Entry) (e : Ini.Entry) (key : CString),
      before ++ e :: after = [baseEntry, peakEntry, intervalEntry] → key.text = e.key →
      (∀ e' ∈ before, ¬ e'.key <+: e.key) → e.value.length < 25 →
      (iniparserGetStringAtPosition file sec key
          ((file.length - (rateLines ++ rest).length : Int) - sec.text.length - 4) 25).ret =
          e.value.length ∧
        (iniparserGetStringAtPosition file sec key
          ((file.length - (rateLines ++ rest).length : Int) - sec.text.length - 4) 25).buffer =
          e.value := by
    intro before after e key hentries hkey hother hroom
    have hscan := scanLoop_reads htakes hkey hother hroom after rest
    rw [hentries, List.append_assoc, List.cons_append] at hscan
    rw [iniparserGetStringAtPosition, hseek, rateLines, hscan]
    exact ⟨rfl, rfl⟩
  have hkey : ∀ k : String, nul ∉ k.toList → (cstring memory k.toList).text = k.toList :=
    fun k hk => by rw [cstring_text, cText_eq_self hk]
  have hbase := hread [] [peakEntry, intervalEntry] baseEntry (cstring memory "base".toList) rfl
    (hkey "base" (by decide)) (by simp) (by decide)
  have hpeak := hread [baseEntry] [intervalEntry] peakEntry (cstring memory "peak".toList) rfl
    (hkey "peak" (by decide)) (by decide) (by decide)
  have hinterval := hread [baseEntry, peakEntry] [] intervalEntry
    (cstring memory "interval".toList) rfl (hkey "interval" (by decide)) (by decide) (by decide)
  have hbase := number_of_read hbase (by omega)
  have hpeak := number_of_read hpeak (by omega)
  have hinterval := float_of_read scanFloat hinterval (by omega)
  have hnumbers : sscanf 10 (stripString (cText baseEntry.value)) = 512 ∧
      sscanf 10 (stripString (cText peakEntry.value)) = 2048 := by
    decide +kernel
  have hten : stripString (cText intervalEntry.value) = "10".toList := by decide +kernel
  rw [hnumbers.1] at hbase
  rw [hnumbers.2] at hpeak
  rw [hten, hfloat, Option.getD_some] at hinterval
  exact rangeChecks_logged hbase hpeak hinterval

theorem haveSocket_logged {seen : List Text} (h : chroot ∉ seen) :
    haveSocket (sockPath chroot) (seen.map logged) = false := by
  rw [haveSocket, List.any_eq_false]
  intro link hlink hpath
  obtain ⟨j, hj, rfl⟩ := List.mem_map.mp hlink
  have hsame : j = chroot := List.append_cancel_right (beq_iff_eq.mp hpath)
  exact h (hsame ▸ hj)

/-- The position behind the header is found again. -/
theorem setPosition_back (hfile : file = front ++ unread) (other : Text) :
    iniparserSetPosition file other (file.length - unread.length) = unread := by
  have hlen : (file.length - unread.length : Int) = front.length := by
    rw [hfile, List.length_append]
    push_cast
    omega
  rw [iniparserSetPosition, hlen, if_neg (by omega), Int.toNat_natCast, hfile, List.drop_left]

theorem nextLoop_rateLines (rest : Text) :
    nextLoop NextScan.initial (rateLines ++ rest) = nextLoop (nameState rateLines none) rest :=
  nextLoop_body _ rest

theorem rateLines_endsLine (a : Text) : EndsLine (a ++ rateLines) := by
  have hlast : rateLines = "\nbase=512\npeak=2048\ninterval=10".toList ++ ['\n'] := by
    decide +kernel
  exact Or.inr ⟨_, by rw [hlast, ← List.append_assoc]⟩

theorem configLoop_entries (hfloat : scanFloat "10".toList = some (.seconds 10))
    (hopens : ∀ link, opens link = true) (chroots seen : List Text) (front : Text) {fuel : Nat}
    (hpass : ∀ rest, nextLoop NextScan.initial (t ++ rest) = nextLoop (nameState t none) rest)
    (hends : EndsLine (front ++ t)) (hfile : file = front ++ (t ++ chroots.flatMap logEntry))
    (hjails : ∀ j ∈ chroots, LogJail j) (hnodup : (seen ++ chroots).Nodup)
    (hmax : (seen ++ chroots).length ≤ maxSockets) (hfuel : chroots.length < fuel) :
    (configLoop memory scanFloat opens file fuel (t ++ chroots.flatMap logEntry)
      ⟨seen.map logged, seen.map logged⟩).calls = (seen ++ chroots).map logged := by
  induction chroots generalizing t seen front fuel with
  | nil =>
      obtain ⟨fuel, rfl⟩ : ∃ k, fuel = k + 1 := ⟨fuel - 1, by omega⟩
      have hnone : iniparserNextSection (t ++ [].flatMap logEntry) = none := by
        rw [iniparserNextSection, hpass]
        rfl
      rw [configLoop, hnone, List.append_nil]
  | cons chroot chroots ih =>
      obtain ⟨fuel, rfl⟩ : ∃ k, fuel = k + 1 := ⟨fuel - 1, by omega⟩
      have hjail := hjails chroot List.mem_cons_self
      have hname : (cstring memory (sockPath chroot)).text = sockPath chroot := by
        rw [cstring_text, cText_eq_self fun h => (sockPath_plain hjail _ h).2.2.2 rfl]
      have hnew : chroot ∉ seen := by
        intro hmem
        rw [List.nodup_append] at hnodup
        exact hnodup.2.2 chroot hmem chroot List.mem_cons_self rfl
      have hroom : (seen.map logged).length ≠ maxSockets := by
        simp only [List.length_append, List.length_cons] at hmax
        rw [List.length_map]
        omega
      have hnext := next_entry hpass hjail (chroots.flatMap logEntry)
      have hassoc : file = (front ++ t) ++ (logEntry chroot ++ chroots.flatMap logEntry) := by
        rw [hfile, List.flatMap_cons, List.append_assoc]
      have hrates := readSection_entry memory hfloat hjail hends _ hassoc
      have hbehind : file = (front ++ t ++ '\n' :: '[' :: (sockPath chroot ++ [']'])) ++
          (rateLines ++ chroots.flatMap logEntry) := by
        rw [hassoc, logEntry_section]
        simp
      rw [List.flatMap_cons, configLoop, hnext]
      simp only [hname, haveSocket_logged hnew, hroom, hrates, hopens, setPosition_back hbehind,
        if_true, if_false, Bool.false_eq_true]
      have hmore := ih (seen ++ [chroot])
        (front ++ t ++ '\n' :: '[' :: (sockPath chroot ++ [']'])) nextLoop_rateLines
        (rateLines_endsLine _) hbehind
        (fun j hj => hjails j (List.mem_cons_of_mem chroot hj)) (by simpa using hnodup)
        (by simpa using hmax) (by simpa using hfuel)
      simpa [logged] using hmore

end

/-- What jk_init has written for the jails is what jk_socketd opens, each once; no name is too
long for the buffer. -/
theorem logsocket_opened (memory : Memory) {scanFloat : Text → Option Interval}
    {opens : NewSocketlink → Bool} {t : Text} {chroots : List Text}
    (hfloat : scanFloat "10".toList = some (.seconds 10)) (hopens : ∀ link, opens link = true)
    (hcomments : Comments t) (hjails : ∀ j ∈ chroots, LogJail j)
    (hmax : (firsts chroots).length ≤ maxSockets) :
    (readConfig memory scanFloat opens (chroots.foldl logsocket t)).calls =
        (firsts chroots).map logged ∧
      ∀ link ∈ (firsts chroots).map logged, link.inpath.length < 1024 := by
  refine ⟨?_, fun link hlink => ?_⟩
  rotate_left
  · obtain ⟨j, hj, rfl⟩ := List.mem_map.mp hlink
    have hshort := (hjails j (mem_firsts.mp hj)).short
    have hlog : "/dev/log".toList.length = 8 := by decide
    simp only [logged, sockPath, List.length_append, hlog]
    omega
  have hentries := foldl_logsocket hcomments hjails
  rw [hentries, readConfig]
  have hlen : (firsts chroots).length ≤ ((firsts chroots).flatMap logEntry).length := by
    rw [List.length_flatMap, ← List.length_map fun j => (logEntry j).length]
    refine List.length_le_sum_of_one_le _ fun n hn => ?_
    obtain ⟨j, -, rfl⟩ := List.mem_map.mp hn
    exact Nat.le_add_left 1 _
  refine configLoop_entries hfloat hopens (firsts chroots) [] [] (nextLoop_comments hcomments)
    (comments_endsLine hcomments) rfl (fun j hj => hjails j (mem_firsts.mp hj))
    (nodup_firsts chroots) hmax ?_
  rw [List.length_append]
  omega

theorem logsocket_opened_two :
    (readConfig (fun _ _ => nul) (fun t => if t = "10".toList then some (.seconds 10) else none)
        (fun _ => true)
        (["/a".toList, "/b".toList, "/a".toList].foldl logsocket "# rates\n".toList)).calls =
        (firsts ["/a".toList, "/b".toList, "/a".toList]).map logged ∧
      ∀ link ∈ (firsts ["/a".toList, "/b".toList, "/a".toList]).map logged,
        link.inpath.length < 1024 := by
  have ha : LogJail "/a".toList := ⟨forall_of_all (by decide), by decide⟩
  have hb : LogJail "/b".toList := ⟨forall_of_all (by decide), by decide⟩
  have hjails : ∀ j ∈ ["/a".toList, "/b".toList, "/a".toList], LogJail j :=
    List.forall_mem_cons.mpr ⟨ha, List.forall_mem_cons.mpr ⟨hb, List.forall_mem_singleton.mpr ha⟩⟩
  exact logsocket_opened _ rfl (fun _ => rfl) ⟨[" rates".toList], by decide, by decide⟩ hjails
    (by decide)

end Jailkit.Socketd
