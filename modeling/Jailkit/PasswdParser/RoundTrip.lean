import Jailkit.PasswdParser.Getpwuid
import Jailkit.Tools.AccountEdits

/-!
The line that jk_jailuser writes for a user into the jail's passwd file, read again by
`internal_getpwuid`.
-/
namespace Jailkit.PasswdParser

open JkLib Tools
open Wrapper (Passwd)

def Field (t : Text) : Prop := ∀ c ∈ t, c ≠ ':' ∧ c ≠ '\n' ∧ c ≠ nul

instance (t : Text) : Decidable (Field t) :=
  List.decidableBAll (fun c => c ≠ ':' ∧ c ≠ '\n' ∧ c ≠ nul) t

/-- `addusertojail` has written a line for the user, who was not in the file. -/
structure Registered (db : Databases) (file file' : PyFile) (jail : Text) (user : Name)
    (shell : Text) (pw : Account) : Prop where
  account : db.getpwnam user.text = some pw
  absent : testUserExist user.text file.content = false
  added : addusertojail db file jail user.text shell = .ok (1, file')
  ends : EndsLine (file.content.getD [])

/-- The file and the account are such that the line can be found and read. -/
structure Readable (file : PyFile) (jail : Text) (user : Name) (shell : Text) (pw : Account) :
    Prop where
  nameField : Field user.text
  gecosField : Field pw.pw_gecos
  homeField : Field (addusertojailHome jail pw.pw_dir)
  shellField : Field shell
  homeNonempty : addusertojailHome jail pw.pw_dir ≠ []
  shellNonempty : shell ≠ []
  uid : pw.pw_uid < 10 ^ 9
  gid : pw.pw_gid < 2 ^ 31
  lines : ∀ line ∈ file.lines, Fits line
  length : (passwdEntry jail user.text shell pw).length < BLOCKSIZE
  others : ∀ line ∈ file.lines, fieldOf line 2 ≠ some (pyStr pw.pw_uid)

section

variable {db : Databases} {file file' : PyFile} {jail shell : Text} {user : Name} {pw : Account}
  {fuel uid : Nat}

theorem field_pyStr (n : Nat) : Field (pyStr n) := by
  intro c hc
  have hdigit := Nat.isDigit_of_mem_toDigits (by decide) (by decide) hc
  refine ⟨?_, ?_, ?_⟩
  all_goals
    intro heq
    rw [heq] at hdigit
    exact absurd hdigit (by decide)

def entryFields (jail user shell : Text) (pw : Account) : List Text :=
  [user, ['x'], pyStr pw.pw_uid, pyStr pw.pw_gid, pw.pw_gecos, addusertojailHome jail pw.pw_dir,
    shell]

theorem passwdEntry_eq (jail user shell : Text) (pw : Account) :
    passwdEntry jail user shell pw = join ':' (entryFields jail user shell pw) := by
  simp [passwdEntry, entryFields, join, List.intercalate]

theorem entryFields_field (h : Readable file jail user shell pw) :
    ∀ t ∈ entryFields jail user.text shell pw, Field t := by
  have hx : Field ['x'] := by decide
  simp only [entryFields, List.forall_mem_cons, List.not_mem_nil, false_imp_iff, implies_true,
    and_true]
  exact ⟨h.nameField, hx, field_pyStr _, field_pyStr _, h.gecosField, h.homeField, h.shellField⟩

theorem passwdEntry_splitOn (h : Readable file jail user shell pw) :
    (passwdEntry jail user.text shell pw).splitOn ':' = entryFields jail user.text shell pw := by
  rw [passwdEntry_eq]
  exact splitOn_join (List.cons_ne_nil _ _) fun t ht hcolon =>
    (entryFields_field h t ht ':' hcolon).1 rfl

theorem passwdEntry_plain (h : Readable file jail user shell pw) :
    '\n' ∉ passwdEntry jail user.text shell pw ∧ nul ∉ passwdEntry jail user.text shell pw := by
  have hplain : ∀ c, c ≠ ':' → c ∈ passwdEntry jail user.text shell pw → c ≠ '\n' ∧ c ≠ nul := by
    intro c hc hmem
    rw [passwdEntry_eq] at hmem
    obtain ⟨f, hf, hcf⟩ := (mem_join hmem).resolve_left hc
    exact (entryFields_field h f hf c hcf).2
  exact ⟨fun hmem => (hplain _ (by decide) hmem).1 rfl, fun hmem => (hplain _ (by decide) hmem).2 rfl⟩

theorem content_registered (hreg : Registered db file file' jail user shell pw) :
    file'.content.getD [] =
      file.content.getD [] ++ (passwdEntry jail user.text shell pw ++ ['\n']) := by
  have hadded := hreg.added
  have hdir : pw.pw_dir ≠ [] := by
    intro hdir
    simp [addusertojail_homeless hreg.account hdir, hreg.absent] at hadded
  simp only [addusertojail_home hreg.account hdir, hreg.absent, Bool.false_eq_true, if_false,
    appendEntry, PyFile.append] at hadded
  cases hdenied : file.denied with
  | true => simp [hdenied] at hadded
  | false =>
      simp only [hdenied, Bool.false_eq_true, if_false, Except.ok.injEq, Prod.mk.injEq,
        true_and] at hadded
      rw [← hadded]
      rfl

/-- The file has the line behind those of before. -/
theorem lines_registered (hreg : Registered db file file' jail user shell pw)
    (h : Readable file jail user shell pw) :
    file'.lines = file.lines ++ [passwdEntry jail user.text shell pw] := by
  rw [PyFile.lines, content_registered hreg]
  exact (linesOf_append_iff _ _).mpr ⟨hreg.ends, (passwdEntry_plain h).1⟩

theorem fieldOf_entry (h : Readable file jail user shell pw) (n : Nat) :
    fieldOf (passwdEntry jail user.text shell pw) n =
      (entryFields jail user.text shell pw)[n]? := by
  rw [fieldOf, if_neg (by omega), passwdEntry_splitOn h, Int.toNat_natCast]

theorem atoi_pyStr {n : Nat} (h : n < 2 ^ 31) : atoi (pyStr n) = n := by
  have hdigits : Nat.ofDigitChars 10 (pyStr n) 0 = n := Nat.ofDigitChars_toDigits (by decide) (by decide)
  have hatoi := @atoi_digits (pyStr n) (Nat.toDigits_ne_nil)
    (fun c hc => Nat.isDigit_of_mem_toDigits (by decide) (by decide) hc) (by rw [hdigits]; exact h)
  rw [hatoi, hdigits]

theorem passwdFromLine_entry (h : Readable file jail user shell pw) :
    passwdFromLine (passwdEntry jail user.text shell pw) pw.pw_uid =
      some ⟨user.text, pw.pw_uid, pw.pw_gid, addusertojailHome jail pw.pw_dir, shell⟩ := by
  have hfields := fieldOf_entry h
  have hname : fieldOf (passwdEntry jail user.text shell pw) 0 = some user.text := hfields 0
  have hgid : fieldOf (passwdEntry jail user.text shell pw) 3 = some (pyStr pw.pw_gid) := hfields 3
  have hdir : fieldOf (passwdEntry jail user.text shell pw) 5 =
      some (addusertojailHome jail pw.pw_dir) := hfields 5
  have hshell : fieldOf (passwdEntry jail user.text shell pw) 6 = some shell := hfields 6
  have hsmall := h.gid
  have hnot : ¬ (pw.pw_gid = 2 ^ 32 - 1 ∨ user.text = [] ∨ addusertojailHome jail pw.pw_dir = [] ∨
      shell = []) := by
    simp only [user.nonempty, h.homeNonempty, h.shellNonempty, or_false]
    omega
  simp only [passwdFromLine, intFieldFromLine, fieldFromLine_eq, hname, hgid, hdir, hshell,
    atoi_pyStr hsmall]
  rw [if_neg hnot]

theorem fits_lines (hreg : Registered db file file' jail user shell pw)
    (h : Readable file jail user shell pw) : ∀ line ∈ file'.lines, Fits line := by
  rw [lines_registered hreg h, List.forall_mem_append, List.forall_mem_singleton]
  exact ⟨h.lines, h.length, (passwdEntry_plain h).2⟩

theorem internalGetpwuid_find {file : PyFile} (hlines : ∀ line ∈ file.lines, Fits line)
    (hfuel : 2 * (file.content.getD []).length + 3 ≤ fuel) :
    internalGetpwuid (some (file.content.getD [])) uid fuel =
      some ((file.lines.find? fun line => decide (fieldOf line 2 = some (findText uid))).bind
        fun line => passwdFromLine line uid) := by
  rw [PyFile.lines] at hlines ⊢
  rw [internalGetpwuid_eq hfuel, matching_eq, searchLines_eq_iff.mpr (cutHarmless_of_fits hlines)]

theorem length_registered (hreg : Registered db file file' jail user shell pw) :
    (file.content.getD []).length ≤ (file'.content.getD []).length := by
  rw [content_registered hreg, List.length_append]
  exact Nat.le_add_right _ _

theorem internalGetpwuid_registered (hreg : Registered db file file' jail user shell pw)
    (h : Readable file jail user shell pw)
    (hfuel : 2 * (file'.content.getD []).length + 3 ≤ fuel) :
    internalGetpwuid (some (file'.content.getD [])) pw.pw_uid fuel =
      some (some ⟨user.text, pw.pw_uid, pw.pw_gid, addusertojailHome jail pw.pw_dir, shell⟩) := by
  have hthird : fieldOf (passwdEntry jail user.text shell pw) 2 = some (pyStr pw.pw_uid) :=
    fieldOf_entry h 2
  have hfound := findText_eq_iff.mpr h.uid
  have hbefore : (file.lines.find? fun line =>
      decide (fieldOf line 2 = some (findText pw.pw_uid))) = none := by
    rw [hfound, List.find?_eq_none]
    intro line hline
    simpa using h.others line hline
  rw [internalGetpwuid_find (fits_lines hreg h) hfuel, lines_registered hreg h,
    List.find?_append, hbefore, Option.none_or, hfound,
    List.find?_cons_of_pos (by simpa using hthird), Option.bind_some, passwdFromLine_entry h]

theorem internalGetpwuid_others (hreg : Registered db file file' jail user shell pw)
    (h : Readable file jail user shell pw)
    (hfuel : 2 * (file'.content.getD []).length + 3 ≤ fuel) (hsmall : uid < 10 ^ 9)
    (hne : uid ≠ pw.pw_uid) :
    internalGetpwuid (some (file'.content.getD [])) uid fuel =
      internalGetpwuid (some (file.content.getD [])) uid fuel := by
  have hthird : fieldOf (passwdEntry jail user.text shell pw) 2 = some (pyStr pw.pw_uid) :=
    fieldOf_entry h 2
  have hlong := length_registered hreg
  have hother : ¬ fieldOf (passwdEntry jail user.text shell pw) 2 = some (findText uid) := by
    rw [hthird, findText_eq_iff.mpr hsmall]
    intro heq
    have hnum := congrArg (fun t => Nat.ofDigitChars 10 t 0) (Option.some.inj heq)
    simp only [pyStr, Nat.ofDigitChars_ten_toDigits] at hnum
    exact hne hnum.symm
  rw [internalGetpwuid_find (fits_lines hreg h) hfuel, lines_registered hreg h,
    List.find?_append, List.find?_cons_of_neg (by simpa using hother), List.find?_nil,
    Option.or_none, internalGetpwuid_find h.lines (by omega)]

end

/-- What jk_jailuser has written for the user is what jk_chrootsh reads, and what it reads for
every other user is as it was. -/
theorem registered_roundTrip (db : Databases) (file file' : PyFile) (jail : Text) (user : Name)
    (shell : Text) (pw : Account) (fuel : Nat)
    (hreg : Registered db file file' jail user shell pw) (h : Readable file jail user shell pw)
    (hfuel : 2 * (file'.content.getD []).length + 3 ≤ fuel) :
    internalGetpwuid (some (file'.content.getD [])) pw.pw_uid fuel =
        some (some ⟨user.text, pw.pw_uid, pw.pw_gid, addusertojailHome jail pw.pw_dir, shell⟩) ∧
      ∀ uid, uid < 10 ^ 9 → uid ≠ pw.pw_uid →
        internalGetpwuid (some (file'.content.getD [])) uid fuel =
          internalGetpwuid (some (file.content.getD [])) uid fuel :=
  ⟨internalGetpwuid_registered hreg h hfuel,
    fun _ hsmall hne => internalGetpwuid_others hreg h hfuel hsmall hne⟩

def bob : Name := ⟨"bob".toList, by decide, by decide, by decide, by decide⟩

def bobAccount : Account := ⟨1001, 100, "Bob".toList, "/srv/jail/home/bob".toList⟩

def bobDatabases : Databases := ⟨fun _ => some bobAccount, fun _ => none⟩

def rootOnly : PyFile := ⟨some "root:x:0:0:root:/root:/bin/sh\n".toList, false⟩

def rootAndBob : PyFile :=
  ⟨some "root:x:0:0:root:/root:/bin/sh\nbob:x:1001:100:Bob:/home/bob:/usr/sbin/jk_lsh\n".toList,
    false⟩

theorem bob_registered : Registered bobDatabases rootOnly rootAndBob "/srv/jail/".toList bob
    "/usr/sbin/jk_lsh".toList bobAccount :=
  ⟨rfl, by decide +kernel, by decide +kernel,
    Or.inr ⟨"root:x:0:0:root:/root:/bin/sh".toList, by decide +kernel⟩⟩

theorem bob_readable :
    Readable rootOnly "/srv/jail/".toList bob "/usr/sbin/jk_lsh".toList bobAccount :=
  ⟨by decide +kernel, by decide +kernel, by decide +kernel, by decide +kernel, by decide +kernel,
    by decide +kernel, by decide, by decide, by decide +kernel, by decide +kernel,
    by decide +kernel⟩

theorem registered_roundTrip_bob :
    internalGetpwuid (some (rootAndBob.content.getD [])) 1001 200 = some (some
        ⟨"bob".toList, 1001, 100, "/home/bob".toList, "/usr/sbin/jk_lsh".toList⟩) ∧
      internalGetpwuid (some (rootAndBob.content.getD [])) 0 200 =
        internalGetpwuid (some (rootOnly.content.getD [])) 0 200 := by
  have h := registered_roundTrip bobDatabases rootOnly rootAndBob "/srv/jail/".toList bob
    "/usr/sbin/jk_lsh".toList bobAccount 200 bob_registered bob_readable (by decide +kernel)
  refine ⟨h.1.trans ?_, h.2 0 (by decide) (by decide)⟩
  decide +kernel

end Jailkit.PasswdParser
