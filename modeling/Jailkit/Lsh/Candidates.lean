import Jailkit.Lsh.Main

/-!
Which file `expand_executable_w_path` finds, for each way in which `stat` can answer about the
candidates, and whether `file_exists` looks at a buffer that `stat` has not filled.
-/
namespace Jailkit.Lsh

open Prog Wrapper

/-- `stat` answers as this function says. -/
def statsAs (outcome : Text → StatResult) : Machine Call Res Unit
  | _, .stat path, r, _ => r = outcome path
  | _, _, _, _ => True

def reportsRegular : StatResult → Bool
  | .ok s => s.isReg
  | .failed _ _ => false

/-- `file_exists` goes on to the type of the file, and `stat` has not written it. -/
def readsUnfilled : StatResult → Bool
  | .ok _ => false
  | .failed errno _ => errno != 2

def inPath (executable path : Text) : Text :=
  if path.getLast? = some '/' then path ++ executable else path ++ '/' :: executable

/-- The executable itself, or else the first regular file behind one of the paths. -/
def firstExisting (outcome : Text → StatResult) (executable : Text)
    (paths : Option (List Text)) : Option Text :=
  if executable.head? = some '/' ∧ reportsRegular (outcome executable) = true then
    some executable
  else
    ((paths.getD []).map (inPath executable)).find? fun c => reportsRegular (outcome c)

structure ResolvesRight (outcome : Text → StatResult) (executable : Text)
    (paths : Option (List Text)) : Prop where
  result : ∀ new, Returns (statsAs outcome) (expandExecutable executable paths) () new () ↔
    new = firstExisting outcome executable paths
  filled : ∀ path,
    Reaches (statsAs outcome) (expandExecutable executable paths) () (.stat path) () →
      readsUnfilled (outcome path) = false

/-- All that can be the executable, in the order in which it is tried. -/
def candidates (executable : Text) (paths : Option (List Text)) : List Text :=
  (if executable.head? = some '/' then [executable] else []) ++
    (paths.getD []).map (inPath executable)

/-- Of no candidate before the first regular file does `stat` fail, unless the candidate does
not exist. -/
def AnsweredClearly (outcome : Text → StatResult) (executable : Text)
    (paths : Option (List Text)) : Prop :=
  ∀ c ∈ (candidates executable paths).takeWhile fun c => !reportsRegular (outcome c),
    readsUnfilled (outcome c) = false

def tried (outcome : Text → StatResult) : List Text → List Text
  | [] => []
  | c :: cs => c :: if fileExists (outcome c) then [] else tried outcome cs

section

variable {outcome : Text → StatResult} {executable c : Text} {cs : List Text}
  {paths : Option (List Text)} {new : Option Text} {r : StatResult}

theorem endingSlash_append (path : Text) :
    endingSlash path ++ executable = inPath executable path := by
  rw [endingSlash, inPath]
  split
  next => rfl
  next => rw [List.append_assoc, List.singleton_append]

theorem fileExists_filled (h : readsUnfilled r = false) : fileExists r = reportsRegular r := by
  cases r with
  | ok s => rfl
  | failed errno garbage =>
      rw [readsUnfilled] at h
      rw [fileExists, h, Bool.false_and]
      rfl

theorem not_regular_of_unfilled (h : readsUnfilled r = true) : reportsRegular r = false := by
  cases r with
  | ok s => cases h
  | failed errno garbage => rfl

theorem returns_statsAs_bind {α : Type} {f : StatResult → Cmd α} {a : α} :
    Returns (statsAs outcome) (Wrapper.perform (.stat c) >>= f) () a () ↔
      Returns (statsAs outcome) (f (outcome c)) () a () := by
  constructor
  · intro h
    cases h with
    | call hM h =>
        have hr := hM
        subst hr
        exact h
  · intro h
    exact .call rfl h

theorem reaches_statsAs_bind {α : Type} {f : StatResult → Cmd α} {d : Call} :
    Reaches (statsAs outcome) (Wrapper.perform (.stat c) >>= f) () d () ↔
      d = .stat c ∨ Reaches (statsAs outcome) (f (outcome c)) () d () := by
  constructor
  · intro h
    cases h with
    | here => exact .inl rfl
    | later hM h =>
        have hr := hM
        subst hr
        exact .inr h
  · intro h
    cases h with
    | inl h =>
        subst h
        exact .here
    | inr h => exact .later rfl h

theorem not_reaches_pure {α : Type} {a : α} {d : Call} :
    ¬ Reaches (statsAs outcome) (pure a : Cmd α) () d () := nofun

theorem expandLoop_returns {paths : List Text} :
    Returns (statsAs outcome) (expandLoop executable paths) () new () ↔
      new = (paths.map (inPath executable)).find? fun c => fileExists (outcome c) := by
  induction paths with
  | nil => simp [expandLoop]
  | cons path paths ih =>
      rw [expandLoop, endingSlash_append, returns_statsAs_bind, List.map_cons, List.find?_cons]
      cases fileExists (outcome (inPath executable path)) with
      | true => simp
      | false => exact ih

theorem expandLoop_reaches {paths : List Text} :
    Reaches (statsAs outcome) (expandLoop executable paths) () (.stat c) () ↔
      c ∈ tried outcome (paths.map (inPath executable)) := by
  induction paths with
  | nil => exact iff_of_false not_reaches_pure List.not_mem_nil
  | cons path paths ih =>
      rw [expandLoop, endingSlash_append, reaches_statsAs_bind, List.map_cons, tried,
        List.mem_cons, Call.stat.injEq]
      refine or_congr_right ?_
      cases fileExists (outcome (inPath executable path)) with
      | true => exact iff_of_false not_reaches_pure List.not_mem_nil
      | false => exact ih

/-- The executable itself is tried as the others are. -/
theorem expandExecutable_eq (h : executable.head? = some '/') :
    expandExecutable executable paths =
      Wrapper.perform (.stat executable) >>= fun r =>
        if fileExists r then pure (some executable)
        else expandLoop executable (paths.getD []) := by
  unfold expandExecutable
  rw [isAbsoluteFile, if_pos h]
  cases paths with
  | none => rfl
  | some paths => rfl

theorem expandExecutable_relative (h : executable.head? ≠ some '/') :
    expandExecutable executable paths = expandLoop executable (paths.getD []) := by
  unfold expandExecutable
  rw [isAbsoluteFile, if_neg h]
  cases paths with
  | none => rfl
  | some paths => rfl

theorem expandExecutable_returns :
    Returns (statsAs outcome) (expandExecutable executable paths) () new () ↔
      new = (candidates executable paths).find? fun c => fileExists (outcome c) := by
  rw [candidates]
  by_cases h : executable.head? = some '/'
  · rw [expandExecutable_eq h, returns_statsAs_bind, if_pos h, List.singleton_append,
      List.find?_cons]
    cases fileExists (outcome executable) with
    | true => simp
    | false => exact expandLoop_returns
  · rw [expandExecutable_relative h, if_neg h, List.nil_append]
    exact expandLoop_returns

theorem expandExecutable_reaches :
    Reaches (statsAs outcome) (expandExecutable executable paths) () (.stat c) () ↔
      c ∈ tried outcome (candidates executable paths) := by
  rw [candidates]
  by_cases h : executable.head? = some '/'
  · rw [expandExecutable_eq h, reaches_statsAs_bind, if_pos h, List.singleton_append, tried,
      List.mem_cons, Call.stat.injEq]
    refine or_congr_right ?_
    cases fileExists (outcome executable) with
    | true => exact iff_of_false not_reaches_pure List.not_mem_nil
    | false => exact expandLoop_reaches
  · rw [expandExecutable_relative h, if_neg h, List.nil_append]
    exact expandLoop_reaches

theorem firstExisting_eq : firstExisting outcome executable paths =
    (candidates executable paths).find? fun c => reportsRegular (outcome c) := by
  rw [firstExisting, candidates]
  by_cases h : executable.head? = some '/'
  · rw [if_pos h, List.singleton_append, List.find?_cons]
    cases hreg : reportsRegular (outcome executable) with
    | true => rw [if_pos ⟨h, rfl⟩]
    | false => rw [if_neg (fun hboth => Bool.false_ne_true hboth.2)]
  · rw [if_neg h, if_neg (fun hboth => h hboth.1), List.nil_append]

/-- The candidates that are tried are those up to the first regular file, if each answer is
clear. -/
theorem tried_filled_iff : (∀ c ∈ tried outcome cs, readsUnfilled (outcome c) = false) ↔
    ∀ c ∈ cs.takeWhile fun c => !reportsRegular (outcome c),
      readsUnfilled (outcome c) = false := by
  induction cs with
  | nil => exact iff_of_true nofun nofun
  | cons c cs ih =>
      rw [tried, List.forall_mem_cons]
      cases hread : readsUnfilled (outcome c) with
      | true =>
          have hreg := not_regular_of_unfilled hread
          rw [List.takeWhile_cons_of_pos (by rw [hreg]; rfl), List.forall_mem_cons, hread]
          simp
      | false =>
          rw [fileExists_filled hread]
          cases hreg : reportsRegular (outcome c) with
          | true =>
              rw [List.takeWhile_cons_of_neg (by rw [hreg]; exact Bool.false_ne_true)]
              exact iff_of_true ⟨rfl, nofun⟩ nofun
          | false =>
              rw [List.takeWhile_cons_of_pos (by rw [hreg]; rfl), List.forall_mem_cons, hread]
              exact and_congr_right fun _ => ih

theorem find_filled (h : ∀ c ∈ tried outcome cs, readsUnfilled (outcome c) = false) :
    (cs.find? fun c => fileExists (outcome c)) = cs.find? fun c => reportsRegular (outcome c) := by
  induction cs with
  | nil => rfl
  | cons c cs ih =>
      rw [tried, List.forall_mem_cons] at h
      have hfilled := fileExists_filled h.1
      rw [List.find?_cons, List.find?_cons, ← hfilled]
      cases hexists : fileExists (outcome c) with
      | true => rfl
      | false =>
          rw [hexists] at h
          exact ih h.2

end

/-- The first candidate that exists is found where `stat` answers clearly about those before,
and only there does `file_exists` keep to buffers that are filled. -/
theorem expandExecutable_right_iff (outcome : Text → StatResult) (executable : Text)
    (paths : Option (List Text)) :
    ResolvesRight outcome executable paths ↔ AnsweredClearly outcome executable paths := by
  constructor
  · intro h
    exact tried_filled_iff.mp fun c hc => h.filled c (expandExecutable_reaches.mpr hc)
  · intro h
    have hfilled := tried_filled_iff.mpr h
    refine ⟨fun new => ?_, fun path hpath => hfilled path (expandExecutable_reaches.mp hpath)⟩
    rw [expandExecutable_returns, find_filled hfilled, firstExisting_eq]

/-- The search permission is missing on a directory (`EACCES`), and what is on the stack looks
like a regular file: the command is found where it is not. -/
theorem expandExecutable_takes_unfilled :
    ¬ ResolvesRight
      (fun c => if c = "/usr/bin/id".toList then .ok ⟨0o100755, 0, 0⟩
        else .failed 13 ⟨0o100755, 0, 0⟩)
      "id".toList (some ["/root/bin".toList, "/usr/bin".toList]) := by
  intro h
  have hunfilled := h.filled "/root/bin/id".toList (.here)
  exact absurd hunfilled (by decide)

end Jailkit.Lsh
