import Jailkit.JkLib.Strings

/-!
`testsafepath` of jk_lib.c: what it reports of the result of `lstat`.
-/
namespace Jailkit

structure Stat where
  st_mode : Nat
  st_uid : Nat
  st_gid : Nat
  deriving DecidableEq, Repr

/-- The file type bits of `st_mode`. -/
def Stat.format (s : Stat) : Nat := s.st_mode &&& 0o170000

def Stat.isLnk (s : Stat) : Bool := s.format == 0o120000

def Stat.isReg (s : Stat) : Bool := s.format == 0o100000

def Stat.mode (s : Stat) (bit : Nat) : Bool := s.st_mode &&& bit != 0

def S_ISUID : Nat := 0o4000
def S_ISGID : Nat := 0o2000
def S_IWGRP : Nat := 0o20
def S_IWOTH : Nat := 0o2

def TESTPATH_NOREGPATH : Nat := 1
def TESTPATH_GROUPW : Nat := 2
def TESTPATH_OTHERW : Nat := 4
def TESTPATH_SETUID : Nat := 8
def TESTPATH_SETGID : Nat := 16
def TESTPATH_OWNER : Nat := 32
def TESTPATH_GROUP : Nat := 64

def flag (b : Bool) (bit : Nat) : Nat := if b then bit else 0

/-- `testsafepath` once `lstat` has answered; `none` is its failure. -/
def testsafepath (sbuf : Option Stat) (owner group : Nat) : Nat :=
  match sbuf with
  | none => TESTPATH_NOREGPATH
  | some s =>
      flag s.isLnk TESTPATH_NOREGPATH ||| flag (s.mode S_ISUID) TESTPATH_SETUID |||
        flag (s.mode S_ISGID) TESTPATH_SETGID ||| flag (s.mode S_IWGRP) TESTPATH_GROUPW |||
        flag (s.mode S_IWOTH) TESTPATH_OTHERW ||| flag (s.st_uid != owner) TESTPATH_OWNER |||
        flag (s.st_gid != group) TESTPATH_GROUP

/-- `retval & bit`. -/
def has (retval bit : Nat) : Bool := retval &&& bit != 0

theorem flags_spec : ∀ lnk uid gid gw ow own grp : Bool,
    let r := flag lnk TESTPATH_NOREGPATH ||| flag uid TESTPATH_SETUID |||
      flag gid TESTPATH_SETGID ||| flag gw TESTPATH_GROUPW ||| flag ow TESTPATH_OTHERW |||
      flag own TESTPATH_OWNER ||| flag grp TESTPATH_GROUP
    has r TESTPATH_NOREGPATH = lnk ∧ has r TESTPATH_SETUID = uid ∧
      has r TESTPATH_SETGID = gid ∧ has r TESTPATH_GROUPW = gw ∧
      has r TESTPATH_OTHERW = ow ∧ has r TESTPATH_OWNER = own ∧
      has r TESTPATH_GROUP = grp := by
  decide

/-- Each bit of the result reports its own property of the file. -/
theorem testsafepath_spec (s : Stat) (owner group : Nat) :
    has (testsafepath (some s) owner group) TESTPATH_NOREGPATH = s.isLnk ∧
      has (testsafepath (some s) owner group) TESTPATH_SETUID = s.mode S_ISUID ∧
      has (testsafepath (some s) owner group) TESTPATH_SETGID = s.mode S_ISGID ∧
      has (testsafepath (some s) owner group) TESTPATH_GROUPW = s.mode S_IWGRP ∧
      has (testsafepath (some s) owner group) TESTPATH_OTHERW = s.mode S_IWOTH ∧
      has (testsafepath (some s) owner group) TESTPATH_OWNER = (s.st_uid != owner) ∧
      has (testsafepath (some s) owner group) TESTPATH_GROUP = (s.st_gid != group) :=
  flags_spec s.isLnk (s.mode S_ISUID) (s.mode S_ISGID) (s.mode S_IWGRP) (s.mode S_IWOTH)
    (s.st_uid != owner) (s.st_gid != group)

end Jailkit
