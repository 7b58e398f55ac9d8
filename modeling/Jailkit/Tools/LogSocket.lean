import Jailkit.JkLib.PyFile

/-!
The entries that jk_init writes to jk_socketd.ini.
-/
namespace Jailkit.Tools

open JkLib

def logHeader (chroot : Text) : Text := '[' :: (chroot ++ "/dev/log]".toList)

def logRates : Text := "base=512\npeak=2048\ninterval=10\n".toList

/-- The file afterwards. -/
def logsocket (content chroot : Text) : Text :=
  if ∃ line ∈ readlines content, line.dropLast = logHeader chroot then content
  else content ++ '\n' :: (logHeader chroot ++ '\n' :: logRates)

/-- Comment lines, each with its newline. -/
def Comments (t : Text) : Prop :=
  ∃ ws : List Text, (∀ w ∈ ws, '\n' ∉ w) ∧ t = ws.flatMap fun w => '#' :: (w ++ ['\n'])

structure LogJail (chroot : Text) : Prop where
  plain : ∀ c ∈ chroot, c ≠ '[' ∧ c ≠ ']' ∧ c ≠ '\n' ∧ c ≠ nul
  short : chroot.length ≤ 1000

/-- The jails in the order in which they come up first. -/
def firsts (chroots : List Text) : List Text :=
  chroots.foldl (fun seen chroot => if chroot ∈ seen then seen else seen ++ [chroot]) []

def logEntry (chroot : Text) : Text := '\n' :: (logHeader chroot ++ '\n' :: logRates)

section

variable {t chroot : Text} {chroots seen : List Text}

theorem comments_endsLine (h : Comments t) : EndsLine t := by
  obtain ⟨ws, -, rfl⟩ := h
  cases ws using List.reverseRecOn with
  | nil => exact Or.inl rfl
  | append_singleton ws w =>
      refine Or.inr ⟨(ws.flatMap fun w => '#' :: (w ++ ['\n'])) ++ '#' :: w, ?_⟩
      simp

theorem readlines_comments (h : Comments t) :
    ∃ ws : List Text, readlines t = ws.map fun w => '#' :: (w ++ ['\n']) := by
  obtain ⟨ws, hws, rfl⟩ := h
  refine ⟨ws, ?_⟩
  have hlines : ∀ l ∈ ws.map fun w => '#' :: w, '\n' ∉ l := by
    intro l hl
    obtain ⟨w, hw, rfl⟩ := List.mem_map.mp hl
    simpa using hws w hw
  have hread := @readlines_unlines _ [] hlines List.not_mem_nil
  rw [unlines, List.flatMap_map, List.map_map, lastLine, if_pos rfl, List.append_nil,
    List.append_nil] at hread
  exact hread

theorem logRates_eq :
    logRates = unlines ["base=512".toList, "peak=2048".toList, "interval=10".toList] [] := by
  decide +kernel

theorem logEntry_eq (chroot : Text) :
    logEntry chroot =
      unlines [[], logHeader chroot, "base=512".toList, "peak=2048".toList, "interval=10".toList]
        [] := by
  rw [logEntry, logRates_eq]
  simp only [unlines_cons, List.nil_append]

theorem readlines_logEntry (hjail : LogJail chroot) :
    readlines (logEntry chroot) =
      [[], logHeader chroot, "base=512".toList, "peak=2048".toList, "interval=10".toList].map
        fun l => l ++ ['\n'] := by
  have hheader : '\n' ∉ logHeader chroot := by
    have hchroot : '\n' ∉ chroot := fun h => (hjail.plain _ h).2.2.1 rfl
    have htail : '\n' ∉ "/dev/log]".toList := by decide
    simp only [logHeader, List.mem_cons, List.mem_append, hchroot, htail, or_self, or_false]
    decide
  have hrates : ∀ l ∈ ["base=512".toList, "peak=2048".toList, "interval=10".toList],
      '\n' ∉ l := by
    decide
  have hlines : ∀ l ∈ [[], logHeader chroot, "base=512".toList, "peak=2048".toList,
      "interval=10".toList], '\n' ∉ l := by
    intro l hl
    cases List.mem_cons.mp hl with
    | inl hnil => exact hnil ▸ List.not_mem_nil
    | inr hl =>
        cases List.mem_cons.mp hl with
        | inl heq => exact heq ▸ hheader
        | inr hl => exact hrates l hl
  rw [logEntry_eq, readlines_unlines hlines List.not_mem_nil, lastLine, if_pos rfl,
    List.append_nil]

theorem logEntry_endsLine (chroot : Text) : EndsLine (logEntry chroot) := by
  rw [logEntry_eq]
  exact (endsLine_unlines List.not_mem_nil).mpr rfl

theorem mem_readlines_entries {line : Text} (ht : EndsLine t) :
    line ∈ readlines (t ++ seen.flatMap logEntry) ↔
      line ∈ readlines t ∨ ∃ j ∈ seen, line ∈ readlines (logEntry j) := by
  induction seen generalizing t with
  | nil => simp
  | cons j seen ih =>
      have hj := endsLine_append ht (logEntry_endsLine j)
      rw [List.flatMap_cons, ← List.append_assoc, ih hj, readlines_endsLine ht, List.mem_append,
        or_assoc, List.exists_mem_cons_iff]

theorem logHeader_injective {chroot' : Text} (h : logHeader chroot = logHeader chroot') :
    chroot = chroot' :=
  List.append_cancel_right (List.cons.inj h).2

theorem header_found_iff (hcomments : Comments t) (hseen : ∀ j ∈ seen, LogJail j) :
    (∃ line ∈ readlines (t ++ seen.flatMap logEntry), line.dropLast = logHeader chroot) ↔
      chroot ∈ seen := by
  constructor
  · intro h
    obtain ⟨line, hline, hheader⟩ := h
    cases (mem_readlines_entries (comments_endsLine hcomments)).mp hline with
    | inl hcomment =>
        obtain ⟨ws, hws⟩ := readlines_comments hcomments
        rw [hws] at hcomment
        obtain ⟨w, -, rfl⟩ := List.mem_map.mp hcomment
        rw [← List.cons_append, List.dropLast_concat] at hheader
        exact absurd (List.cons.inj hheader).1 (by decide)
    | inr hentry =>
        obtain ⟨j, hj, hmem⟩ := hentry
        rw [readlines_logEntry (hseen j hj)] at hmem
        obtain ⟨l, hl, rfl⟩ := List.mem_map.mp hmem
        rw [List.dropLast_concat] at hheader
        have hother : ∀ l ∈ ["base=512".toList, "peak=2048".toList, "interval=10".toList],
            l.head? ≠ some '[' := by
          decide
        cases List.mem_cons.mp hl with
        | inl hnil =>
            rw [hnil] at hheader
            cases hheader
        | inr hl =>
            cases List.mem_cons.mp hl with
            | inl hsame => exact logHeader_injective (hsame.symm.trans hheader) ▸ hj
            | inr hrate => exact absurd (hheader ▸ rfl) (hother l hrate)
  · intro h
    refine ⟨logHeader chroot ++ ['\n'], ?_, List.dropLast_concat⟩
    refine (mem_readlines_entries (comments_endsLine hcomments)).mpr (Or.inr ⟨chroot, h, ?_⟩)
    rw [readlines_logEntry (hseen chroot h)]
    exact List.mem_map_of_mem (List.mem_cons_of_mem _ List.mem_cons_self)

theorem logsocket_entries (hcomments : Comments t) (hseen : ∀ j ∈ seen, LogJail j)
    (chroot : Text) :
    logsocket (t ++ seen.flatMap logEntry) chroot =
      t ++ (if chroot ∈ seen then seen else seen ++ [chroot]).flatMap logEntry := by
  rw [logsocket]
  by_cases hmem : chroot ∈ seen
  · rw [if_pos ((header_found_iff hcomments hseen).mpr hmem), if_pos hmem]
  · rw [if_neg fun h => hmem ((header_found_iff hcomments hseen).mp h), if_neg hmem,
      List.flatMap_append, List.flatMap_singleton, List.append_assoc]
    rfl

/-- The file that a row of calls leaves. -/
theorem foldl_logsocket (hcomments : Comments t) (hjails : ∀ j ∈ chroots, LogJail j) :
    chroots.foldl logsocket t = t ++ (firsts chroots).flatMap logEntry := by
  have hrun : ∀ seen : List Text, (∀ j ∈ seen, LogJail j) →
      chroots.foldl logsocket (t ++ seen.flatMap logEntry) =
        t ++ (chroots.foldl (fun seen chroot =>
          if chroot ∈ seen then seen else seen ++ [chroot]) seen).flatMap logEntry := by
    induction chroots with
    | nil => exact fun seen _ => rfl
    | cons chroot chroots ih =>
        intro seen hseen
        rw [List.foldl_cons, List.foldl_cons, logsocket_entries hcomments hseen]
        apply ih fun j hj => hjails j (List.mem_cons_of_mem chroot hj)
        intro j hj
        split at hj
        · exact hseen j hj
        · cases List.mem_append.mp hj with
          | inl hj => exact hseen j hj
          | inr hj => exact List.mem_singleton.mp hj ▸ hjails chroot List.mem_cons_self
  have hstart := hrun [] nofun
  rwa [List.flatMap_nil, List.append_nil] at hstart

theorem firsts_run (chroots seen : List Text) (hseen : seen.Nodup) :
    (chroots.foldl (fun seen chroot =>
        if chroot ∈ seen then seen else seen ++ [chroot]) seen).Nodup ∧
      ∀ j, j ∈ chroots.foldl (fun seen chroot =>
        if chroot ∈ seen then seen else seen ++ [chroot]) seen ↔ j ∈ seen ∨ j ∈ chroots := by
  induction chroots generalizing seen with
  | nil => exact ⟨hseen, fun j => by simp⟩
  | cons chroot chroots ih =>
      rw [List.foldl_cons]
      by_cases hmem : chroot ∈ seen
      · obtain ⟨hnodup, hall⟩ := ih seen hseen
        rw [if_pos hmem]
        refine ⟨hnodup, fun j => ?_⟩
        rw [hall, List.mem_cons]
        constructor
        · exact fun h => h.imp_right Or.inr
        · intro h
          cases h with
          | inl h => exact Or.inl h
          | inr h =>
              cases h with
              | inl heq => exact Or.inl (heq ▸ hmem)
              | inr h => exact Or.inr h
      · have hnew : (seen ++ [chroot]).Nodup := by
          rw [List.nodup_append]
          refine ⟨hseen, by simp, fun a ha b hb heq => hmem ?_⟩
          rwa [← List.mem_singleton.mp hb, ← heq]
        obtain ⟨hnodup, hall⟩ := ih (seen ++ [chroot]) hnew
        rw [if_neg hmem]
        refine ⟨hnodup, fun j => ?_⟩
        rw [hall, List.mem_append, List.mem_singleton, List.mem_cons, or_assoc]

theorem nodup_firsts (chroots : List Text) : (firsts chroots).Nodup :=
  (firsts_run chroots [] List.nodup_nil).1

theorem mem_firsts {j : Text} : j ∈ firsts chroots ↔ j ∈ chroots := by
  have hall := (firsts_run chroots [] List.nodup_nil).2 j
  rw [firsts, hall]
  simp

end

end Jailkit.Tools
