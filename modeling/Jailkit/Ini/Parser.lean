import Jailkit.JkLib.Strings

/-!
The configuration reader of iniparser.c. The stream is the text not read yet;
`ftell` is the length of the file less the length of that text.

Arrays grow as the code stores into them: that a store stays inside the caller's
array is a statement of its own.
-/
namespace Jailkit.Ini

/-- What `fgetc` leaves in a `char` at end of file. -/
def eofChar : Char := Char.ofNat 255

/-- `fseek(fd, position, SEEK_SET)`, and the rewind when it fails. -/
def fseek (file : Text) (position : Int) : Text :=
  if position < 0 then file else file.drop position.toNat

/-- The local variables of `iniparser_get_string_at_position`; `bufferChar` is the
length of `buffer`. -/
structure Scan where
  ch : Char
  sectionNameChar : Nat
  keyNameChar : Nat
  buffer : Text
  inSection : Bool
  sectionStart : Bool
  foundKey : Bool
  inComment : Bool
  inWrongKey : Bool
  deriving DecidableEq, Repr

def Scan.initial : Scan where
  ch := nul
  sectionNameChar := 0
  keyNameChar := 0
  buffer := []
  inSection := false
  sectionStart := false
  foundKey := false
  inComment := false
  inWrongKey := false

inductive Step where
  | next (s : Scan)
  | ret (value : Int) (buffer : Text)
  deriving DecidableEq, Repr

def scanHeader (sec : CString) (s : Scan) (ch : Char) : Scan :=
  if !s.sectionStart && ch == '[' then
    { s with sectionStart := true }
  else if s.sectionStart && ch == sec.get s.sectionNameChar then
    { s with sectionNameChar := s.sectionNameChar + 1 }
  else if s.sectionStart && s.sectionNameChar != 0 && ch == ']' then
    { s with sectionStart := false, inSection := true, sectionNameChar := 0 }
  else if s.sectionStart then
    { s with sectionStart := false, sectionNameChar := 0 }
  else
    s

def scanKey (key : CString) (s : Scan) (ch : Char) : Step :=
  if ch == key.get s.keyNameChar then
    .next { s with keyNameChar := s.keyNameChar + 1 }
  else if isspace ch then
    .next s
  else if s.keyNameChar != 0 && ch == '=' then
    .next { s with foundKey := true }
  else if ch == '\n' then
    -- never taken: a newline is white space
    .next { s with inWrongKey := false, keyNameChar := 0 }
  else if ch == '[' then
    .ret (-1) []
  else
    .next { s with inWrongKey := true }

def scanValue (bufferlen : Nat) (s : Scan) (ch : Char) : Step :=
  if s.buffer.length < bufferlen then
    if ch != '\n' then .next { s with buffer := s.buffer ++ [ch] }
    else .ret s.buffer.length s.buffer
  else
    .ret s.buffer.length s.buffer

def scanStep (sec key : CString) (bufferlen : Nat) (s : Scan) (ch : Char) : Step :=
  let prevch := s.ch
  let s := { s with ch := ch }
  if s.inComment then
    if ch == '\n' then .next { s with inComment := false } else .next s
  else if ch == '#' && (prevch == '\n' || prevch == nul) then
    .next { s with inComment := true }
  else if !s.inSection then
    .next (scanHeader sec s ch)
  else if s.inWrongKey then
    if ch == '\n' then
      .next { s with inWrongKey := false, foundKey := false, keyNameChar := 0 }
    else
      .next s
  else if !s.foundKey then
    scanKey key s ch
  else
    scanValue bufferlen s ch

/-- What the caller sees: the return value, the string in `buffer`, and the stream. -/
structure Answer where
  ret : Int
  buffer : Text
  unread : Text
  feof : Bool
  deriving DecidableEq, Repr

/-- The loop: at end of file the character of `EOF` is still processed once. -/
def scanLoop (sec key : CString) (bufferlen : Nat) : Scan → Text → Answer
  | s, [] =>
      match scanStep sec key bufferlen s eofChar with
      | .next s' => ⟨s'.buffer.length, s'.buffer, [], true⟩
      | .ret value buffer => ⟨value, buffer, [], true⟩
  | s, c :: cs =>
      match scanStep sec key bufferlen s c with
      | .next s' => scanLoop sec key bufferlen s' cs
      | .ret value buffer => ⟨value, buffer, cs, false⟩

def iniparserGetStringAtPosition (file : Text) (sec key : CString) (position : Int)
    (bufferlen : Nat) : Answer :=
  scanLoop sec key bufferlen Scan.initial (fseek file position)

def digit (base : Nat) (c : Char) : Option Nat :=
  if '0' ≤ c ∧ c.toNat < '0'.toNat + base then some (c.toNat - '0'.toNat) else none

def digits (base : Nat) : Nat → Text → Nat
  | n, c :: cs =>
      match digit base c with
      | some d => digits base (n * base + d) cs
      | none => n
  | n, [] => n

/-- `strtoul` on 64-bit longs: the magnitude saturates, a minus sign negates. -/
def strtoul (base : Nat) (negative : Bool) (t : Text) : Nat :=
  let n := digits base 0 t
  if n ≥ 2 ^ 64 then 2 ^ 64 - 1
  else if negative then (2 ^ 64 - n) % 2 ^ 64 else n

/-- `sscanf` with `%u` or `%o` into an `int` that holds 0. -/
def sscanf (base : Nat) (t : Text) : Nat :=
  match t.dropWhile isspace with
  | '-' :: t' => strtoul base true t' % 2 ^ 32
  | '+' :: t' => strtoul base false t' % 2 ^ 32
  | t' => strtoul base false t' % 2 ^ 32

def minusOne : Nat := 2 ^ 32 - 1

/-- `iniparser_get_int_at_position` (base 10) and
`iniparser_get_octalint_at_position` (base 8). The `int` they return is kept as
its 32-bit pattern, which is what the callers store. -/
def iniparserGetNumberAtPosition (base : Nat) (file : Text) (sec key : CString)
    (position : Int) : Nat :=
  let a := iniparserGetStringAtPosition file sec key position 25
  if a.ret = -1 then minusOne else sscanf base (stripString (cText a.buffer))

def iniparserGetIntAtPosition := iniparserGetNumberAtPosition 10

def iniparserGetOctalintAtPosition := iniparserGetNumberAtPosition 8

/-- The local variables of `iniparser_next_section`; `sectionNameChar` is the length
of `buf`. -/
structure NextScan where
  buf : Text
  sectionStart : Bool
  inComment : Bool
  prevch : Char
  deriving DecidableEq, Repr

def NextScan.initial : NextScan where
  buf := []
  sectionStart := false
  inComment := false
  prevch := nul

inductive NextStep where
  | next (s : NextScan)
  | found (name : Text)
  deriving DecidableEq, Repr

def nextStep (s : NextScan) (ch : Char) : NextStep :=
  if ch == '#' && (s.prevch == '\n' || s.prevch == nul) then
    .next { s with inComment := true, prevch := ch }
  else if ch == '\n' && s.inComment then
    .next { s with inComment := false, prevch := ch }
  else if s.inComment then
    .next { s with prevch := ch }
  else if !s.sectionStart && ch == '[' then
    .next { s with sectionStart := true, prevch := ch }
  else if s.sectionStart && ch != ']' then
    .next { s with buf := s.buf ++ [ch], prevch := ch }
  else if s.sectionStart && !s.buf.isEmpty && ch == ']' then
    .found s.buf
  else
    .next { s with prevch := ch }

/-- The character of `EOF` is no `]`, so it never completes a section. -/
def nextLoop : NextScan → Text → Option (Text × Text)
  | _, [] => none
  | s, c :: cs =>
      match nextStep s c with
      | .next s' => nextLoop s' cs
      | .found name => some (name, cs)

/-- The name of the next section and the text behind its `]`. -/
def iniparserNextSection (unread : Text) : Option (Text × Text) :=
  nextLoop NextScan.initial unread

/-- `iniparser_has_section` calls `iniparser_next_section` until the name compares
equal; the result is the text left unread then. -/
def hasSectionLoop (sec : Text) : NextScan → Text → Option Text
  | _, [] => none
  | s, c :: cs =>
      match nextStep s c with
      | .next s' => hasSectionLoop sec s' cs
      | .found name =>
          if cText name = sec then some cs else hasSectionLoop sec NextScan.initial cs

def iniparserHasSection (file : Text) (sec : CString) : Option Text :=
  hasSectionLoop sec.text NextScan.initial file

theorem hasSectionLoop_eq (sec : Text) (s : NextScan) (unread : Text) :
    hasSectionLoop sec s unread =
      match nextLoop s unread with
      | none => none
      | some (name, rest) =>
          if cText name = sec then some rest
          else hasSectionLoop sec NextScan.initial rest := by
  induction unread generalizing s with
  | nil => rfl
  | cons c cs ih =>
      simp only [hasSectionLoop, nextLoop]
      cases nextStep s c with
      | next s' => exact ih s'
      | found name => rfl

end Jailkit.Ini
