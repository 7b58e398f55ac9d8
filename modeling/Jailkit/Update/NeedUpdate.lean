import Jailkit.Tools.Execute
import Jailkit.Update.Scan

/-!
What `need_update` decides for two regular files that can be read: by their contents alone.
The times only decide whether the sizes are compared as well.
-/
namespace Jailkit.Update

open JkLib Raising Tools

theorem compareBlocks_eq (n : Nat) (fA fB : Text) (hn : fA.length < n) :
    compareBlocks n fA fB = decide (fA = fB) := by
  induction n generalizing fA fB with
  | zero => omega
  | succ n ih =>
      have hsplit : fA.take 4096 = fB.take 4096 ∧ fA.drop 4096 = fB.drop 4096 ↔ fA = fB := by
        constructor
        · intro h
          rw [← List.take_append_drop 4096 fA, ← List.take_append_drop 4096 fB, h.1, h.2]
        · intro h
          exact ⟨by rw [h], by rw [h]⟩
      simp only [compareBlocks]
      split
      next hdiff =>
        have hne : fA ≠ fB := fun h => hdiff (by rw [h])
        rw [decide_eq_false hne]
      next hsame =>
        have hsame := not_not.mp hsame
        split
        next hnil =>
          have hA : fA = [] := by simpa using hnil
          have hB : fB = [] := by simpa [hnil] using hsame.symm
          rw [hA, hB, decide_eq_true rfl]
        next hnil =>
          have hlt : (fA.drop 4096).length < n := by
            have hA : fA ≠ [] := fun h => hnil (by rw [h]; rfl)
            have hpos := List.length_pos_of_ne_nil hA
            rw [List.length_drop]
            omega
          rw [ih _ _ hlt]
          exact decide_eq_decide.mpr ((and_iff_right hsame).symm.trans hsplit)

/-- The path names a regular file, and not through a symlink at its end. -/
def RegularAt (fs : Fs) (path : Text) (ino : Nat) : Prop :=
  fs.lookup false path = some (.file ino) ∧ (fs.inode ino).kind = .reg

/-- A regular file can be examined and read. -/
def Readable (s : World) (c : Call) (r : Res c) : Prop :=
  match c, r with
  | .lstatSize path, .error _ => ∀ ino, ¬ RegularAt s.fs path ino
  | .openRead path, .error _ => ∀ ino, ¬ RegularAt s.fs path ino
  | _, _ => True

def regularStat (fs : Fs) (ino : Nat) : SizedStat :=
  ⟨⟨.reg, (fs.inode ino).attrs, (fs.inode ino).rdev⟩, (fs.inode ino).content.length⟩

/-- Every run from `s` comes to this value, and to the same state. -/
def Gives {α : Type} (umask : Nat) (s : World) (p : Py α) (a : α) : Prop :=
  Holds (posixWhere umask Readable) (fun _ _ => True) p (fun b s' => b = a ∧ s' = s)
    (fun _ _ => False) s

section

variable {α β : Type} {umask : Nat} {s : World} {path original injail : Text} {i j ino : Nat}

theorem gives_pure (a : α) : Gives umask s (pure a) a := ⟨rfl, rfl⟩

theorem gives_bind {p : Py α} {f : α → Py β} {a : α} {b : β} (hp : Gives umask s p a)
    (hf : Gives umask s (f a) b) : Gives umask s (p >>= f) b := by
  apply holds_bind
  apply holds_mono hp
  · intro a' s' h
    obtain ⟨ha, hs⟩ := h
    subst ha hs
    exact hf
  · exact fun _ _ h => h

theorem gives_attempt {p : Py α} {a : α} (hp : Gives umask s p a) :
    Gives umask s (attempt p) (.ok a) := by
  apply holds_attempt
  apply holds_mono hp
  · intro a' s' h
    exact ⟨by rw [h.1], h.2⟩
  · exact fun _ _ h => h.elim

theorem statPath_regular (h : RegularAt s.fs path ino) :
    statPath s.fs false path = some (regularStat s.fs ino).buf := by
  obtain ⟨loc, hloc, he⟩ := Option.bind_eq_some_iff.mp h.1
  simp only [statPath, hloc, Option.bind_some, statOf, he, h.2]
  rfl

theorem findsSized_regular {st : SizedStat} (h : RegularAt s.fs path ino)
    (hst : FindsSized s.fs path (.ok st)) : st = regularStat s.fs ino := by
  obtain ⟨buf, hbuf, -, hall, hsize⟩ := hst
  have hlnk : (regularStat s.fs ino).buf.format ≠ .lnk := fun h => by cases h
  rw [statPath_regular h] at hbuf
  cases hbuf
  cases st with
  | mk buf size =>
      have hb : buf = (regularStat s.fs ino).buf := hall hlnk
      have hs : size = (s.fs.inode ino).content.length := hsize ino h.1 h.2
      rw [hb, hs]
      rfl

theorem lstatSize_gives (h : RegularAt s.fs path ino) :
    Gives umask s (lstatSize path) (regularStat s.fs ino) := by
  refine ⟨trivial, fun r s' hM => ?_⟩
  obtain ⟨⟨hfinds, heq⟩, hread⟩ := hM
  cases r with
  | ok st => exact ⟨findsSized_regular h hfinds, heq⟩
  | error e => exact hread ino h

theorem openRead_gives (h : RegularAt s.fs path ino) :
    Gives umask s (openRead path) (s.fs.inode ino).content := by
  refine ⟨trivial, fun r s' hM => ?_⟩
  obtain ⟨⟨hopens, heq⟩, hread⟩ := hM
  cases r with
  | error e => exact hread ino h
  | ok content =>
      obtain ⟨ino', hino, hcontent⟩ := hopens
      rw [Fs.lookup_follow h.1 (by simp)] at hino
      cases hino
      exact ⟨hcontent h.2, heq⟩

theorem compareContent_gives (hi : RegularAt s.fs original i) (hj : RegularAt s.fs injail j) :
    Gives umask s (compareContent original injail)
      (decide ((s.fs.inode i).content = (s.fs.inode j).content)) := by
  have hread : Gives umask s (do
      let fA ← openRead original
      let fB ← openRead injail
      pure (compareBlocks (fA.length + 1) fA fB))
      (decide ((s.fs.inode i).content = (s.fs.inode j).content)) := by
    apply gives_bind (openRead_gives hi)
    apply gives_bind (openRead_gives hj)
    rw [compareBlocks_eq _ _ _ (Nat.lt_succ_self _)]
    exact gives_pure _
  apply gives_bind (gives_attempt hread)
  exact gives_pure _

/-- The sizes count only where the original is newer. -/
theorem compareMetadata_gives (hj : RegularAt s.fs injail j) :
    Gives umask s (compareMetadata original injail (regularStat s.fs i))
      (decide ((s.fs.inode j).attrs.mtime < (s.fs.inode i).attrs.mtime →
        (s.fs.inode i).content.length = (s.fs.inode j).content.length)) := by
  apply gives_bind (lstatSize_gives hj)
  by_cases hnewer : (s.fs.inode j).attrs.mtime < (s.fs.inode i).attrs.mtime
  · by_cases hsize : (s.fs.inode i).content.length = (s.fs.inode j).content.length
    · simp only [regularStat, hnewer, hsize, if_true, ne_eq, not_true_eq_false, if_false,
        reduceCtorEq, implies_true, decide_true]
      exact gives_pure _
    · simp only [regularStat, hnewer, hsize, if_true, ne_eq, not_false_eq_true, forall_const,
        decide_false]
      exact gives_pure _
  · simp only [regularStat, hnewer, if_false, false_implies, decide_true]
    exact gives_pure _

/-- The result depends on the contents alone. -/
theorem needUpdate_gives (hi : RegularAt s.fs original i) (hj : RegularAt s.fs injail j) :
    Gives umask s (needUpdate original injail (regularStat s.fs i))
      (if (s.fs.inode i).content = (s.fs.inode j).content then 0 else 1) := by
  have hcompare : Gives umask s (do
      if ← compareMetadata original injail (regularStat s.fs i) then do
        if ← compareContent original injail then pure 0 else pure 1
      else pure 1 : Py Nat)
      (if (s.fs.inode i).content = (s.fs.inode j).content then 0 else 1) := by
    apply gives_bind (compareMetadata_gives hj)
    split
    next =>
      apply gives_bind (compareContent_gives hi hj)
      by_cases hsame : (s.fs.inode i).content = (s.fs.inode j).content
      · rw [if_pos (decide_eq_true hsame), if_pos hsame]
        exact gives_pure _
      · rw [if_neg (by rw [decide_eq_false hsame]; exact Bool.false_ne_true), if_neg hsame]
        exact gives_pure _
    next hsize =>
      have hdiff : (s.fs.inode i).content ≠ (s.fs.inode j).content := by
        intro h
        exact hsize (decide_eq_true fun _ => by rw [h])
      rw [if_neg hdiff]
      exact gives_pure _
  apply gives_bind (gives_attempt hcompare)
  exact gives_pure _

end

theorem readable_execute (umask : Nat) (s : World) (c : Call) :
    posixWhere umask Readable s c (execute umask s c).1 (execute umask s c).2 := by
  refine ⟨posix_execute umask s c, ?_⟩
  cases c with
  | lstatSize path =>
      simp only [execute, foundSized]
      cases hstat : statPath s.fs false path with
      | some buf => exact trivial
      | none =>
          intro ino h
          rw [statPath_regular h] at hstat
          cases hstat
  | openRead path =>
      simp only [execute, opened]
      split
      · exact trivial
      next hnone =>
        intro ino h
        exact hnone ino (Fs.lookup_follow h.1 (by simp))
  | _ => exact trivial

/-- Where every run gives a value, all runs end with it, and there are runs. -/
theorem returns_of_gives {α : Type} {umask : Nat} {s : World} {p : Py α} {a : α}
    (h : Gives umask s p a) (Q : Except Exn α → Prop) :
    (∀ r s', Prog.Returns (posixWhere umask Readable) p s r s' → Q r) ↔ Q (.ok a) := by
  have hall : ∀ r s', Prog.Returns (posixWhere umask Readable) p s r s' → r = .ok a := by
    intro r s' hr
    have hend := Prog.result_of_returns h hr
    cases r with
    | ok b => rw [hend.1]
    | error e => exact hend.elim
  constructor
  · intro hQ
    obtain ⟨r, s', hr⟩ := Prog.exists_returns
      (fun s c => ⟨_, _, readable_execute umask s c⟩) p s
    have hQr := hQ r s' hr
    rwa [hall r s' hr] at hQr
  · intro hQ r s' hr
    rwa [hall r s' hr]

/-- An update is needed where the original is newer and different, and nowhere else. -/
def DecidesByAge (umask : Nat) (s : World) (original injail : Text) (i j : Nat)
    (origstatbuf : SizedStat) : Prop :=
  ∀ r s', Prog.Returns (posixWhere umask Readable) (needUpdate original injail origstatbuf) s
      r s' →
    r = .ok (if (s.fs.inode j).attrs.mtime < (s.fs.inode i).attrs.mtime ∧
      (s.fs.inode i).content ≠ (s.fs.inode j).content then 1 else 0)

def ComparesContent (umask : Nat) (s : World) (original injail : Text) (i j : Nat) : Prop :=
  ∀ r s', Prog.Returns (posixWhere umask Readable) (compareContent original injail) s r s' →
    r = .ok (decide ((s.fs.inode i).content = (s.fs.inode j).content))

/-- A jail file that differs from an original that is not newer is taken for outdated. -/
theorem needUpdate_by_age_iff (umask : Nat) (s : World) (original injail : Text) (i j : Nat)
    (origstatbuf : SizedStat) (hi : RegularAt s.fs original i) (hj : RegularAt s.fs injail j)
    (hstat : FindsSized s.fs original (.ok origstatbuf)) :
    DecidesByAge umask s original injail i j origstatbuf ∧
        ComparesContent umask s original injail i j ↔
      ((s.fs.inode i).content = (s.fs.inode j).content ∨
        (s.fs.inode j).attrs.mtime < (s.fs.inode i).attrs.mtime) := by
  rw [findsSized_regular hi hstat, DecidesByAge, ComparesContent,
    returns_of_gives (needUpdate_gives hi hj) _, returns_of_gives (compareContent_gives hi hj) _,
    and_iff_left rfl]
  by_cases hsame : (s.fs.inode i).content = (s.fs.inode j).content
  · simp [hsame]
  · by_cases hnewer : (s.fs.inode j).attrs.mtime < (s.fs.inode i).attrs.mtime
    · simp [hsame, hnewer]
    · simp [hsame, hnewer]

def twoCopies (mtime mtimeInJail : Nat) (content contentInJail : Text) : World where
  fs := {
    nodes := [(["f".toList], .file 0), (["jail".toList], .dir),
      (["jail".toList, "f".toList], .file 1)]
    inode := fun ino =>
      if ino = 0 then ⟨.reg, ⟨0o644, 0, 0, 0, mtime⟩, content, 0⟩
      else ⟨.reg, ⟨0o644, 0, 0, 0, mtimeInJail⟩, contentInJail, 0⟩
    dirAttrs := fun _ => ⟨0o755, 0, 0, 0, 0⟩
    nextIno := 2
    cwd := [] }
  statcache := fun _ => none
  lists := fun _ => []

section

variable (mtime mtimeInJail : Nat) (content contentInJail : Text)

theorem twoCopies_original :
    RegularAt (twoCopies mtime mtimeInJail content contentInJail).fs "/f".toList 0 :=
  ⟨rfl, rfl⟩

theorem twoCopies_injail :
    RegularAt (twoCopies mtime mtimeInJail content contentInJail).fs "/jail/f".toList 1 :=
  ⟨rfl, rfl⟩

theorem twoCopies_stat :
    FindsSized (twoCopies mtime mtimeInJail content contentInJail).fs "/f".toList
      (.ok (regularStat (twoCopies mtime mtimeInJail content contentInJail).fs 0)) := by
  refine ⟨_, statPath_regular (twoCopies_original mtime mtimeInJail content contentInJail), rfl,
    fun _ => rfl, fun ino h _ => ?_⟩
  cases h
  rfl

end

theorem needUpdate_by_age_iff_newer :
    DecidesByAge 0o022 (twoCopies 5 3 "new".toList "old".toList) "/f".toList "/jail/f".toList 0 1
      (regularStat (twoCopies 5 3 "new".toList "old".toList).fs 0) :=
  ((needUpdate_by_age_iff 0o022 (twoCopies 5 3 "new".toList "old".toList) "/f".toList
    "/jail/f".toList 0 1 _ (twoCopies_original _ _ _ _) (twoCopies_injail _ _ _ _)
    (twoCopies_stat _ _ _ _)).mpr (Or.inr (by decide))).1

/-- The copy in the jail was changed after the original: it is to be replaced. -/
theorem needUpdate_replaces_newer :
    RegularAt (twoCopies 3 5 "old".toList "new".toList).fs "/f".toList 0 ∧
      RegularAt (twoCopies 3 5 "old".toList "new".toList).fs "/jail/f".toList 1 ∧
      ¬ DecidesByAge 0o022 (twoCopies 3 5 "old".toList "new".toList) "/f".toList
        "/jail/f".toList 0 1 (regularStat (twoCopies 3 5 "old".toList "new".toList).fs 0) := by
  refine ⟨twoCopies_original _ _ _ _, twoCopies_injail _ _ _ _, ?_⟩
  rw [DecidesByAge, returns_of_gives
    (needUpdate_gives (twoCopies_original _ _ _ _) (twoCopies_injail _ _ _ _)) _]
  decide

end Jailkit.Update
