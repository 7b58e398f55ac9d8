import Jailkit.JkLib.PyFile
import Jailkit.Tools.JailUser

/-!
How jk_jailuser edits the passwd and group files of the jail, on Linux.
-/
namespace Jailkit.Tools

open JkLib

/-- The name of a user or a group, as it stands in a table of the system. -/
structure Name where
  text : Text
  nonempty : text ≠ []
  oneField : ':' ∉ text
  oneMember : ',' ∉ text
  oneLine : '\n' ∉ text

/-- What `pwd.getpwnam` returns, as far as it is used. -/
structure Account where
  pw_uid : Nat
  pw_gid : Nat
  pw_gecos : Text
  pw_dir : Text
  deriving DecidableEq, Repr

structure Group where
  gr_name : Name
  gr_gid : Nat

structure Databases where
  getpwnam : Text → Option Account
  getgrgid : Nat → Option Group

def testGroupExist (group : Text) (content : Option Text) : Bool :=
  testNumitemExist group 0 content

/-- A user of `None` adds nothing behind the last colon. -/
def groupEntry (gr : Group) (user : Option Text) : Text :=
  gr.gr_name.text ++ ":x:".toList ++ pyStr gr.gr_gid ++ [':'] ++ user.getD []

abbrev Edit := Except AccountExn (Nat × PyFile)

def appendEntry (file : PyFile) (entry : Text) : Nat × PyFile :=
  match file.append (entry ++ ['\n']) with
  | none => (0, file)
  | some file => (1, file)

def addgrouptojail (db : Databases) (file : PyFile) (group_id : Nat) (user : Option Text) :
    Edit :=
  match db.getgrgid group_id with
  | none => .error .keyError
  | some gr =>
      if testGroupExist gr.gr_name.text file.content then .ok (1, file)
      else .ok (appendEntry file (groupEntry gr user))

/-- The loop of `addusertogroupinjail`, which is at `pos` in the file. -/
def memberLoop (group_id : Nat) (user content : Text) :
    Nat → List Text → Except AccountExn (Nat × Text)
  | _, [] => .ok (0, content)
  | pos, line :: lines =>
      match line.splitOn ':' with
      | [name, _, gid, members] =>
          match pyInt gid with
          | none => .error .valueError
          | some n =>
              if n = group_id then
                let users := members.dropLast.splitOn ','
                if user ∈ users then .ok (1, content)
                else
                  let pos := pos + line.length
                  let buf := content.drop pos
                  let users := if users = [[]] then [user] else users ++ [user]
                  let tmp := name ++ ":x:".toList ++ gid ++ [':'] ++ join ',' users ++ ['\n'] ++ buf
                  .ok (1, overwrite content (pos - line.length) tmp)
              else memberLoop group_id user content (pos + line.length) lines
      | _ => memberLoop group_id user content (pos + line.length) lines

def addusertogroupinjail (db : Databases) (file : PyFile) (group_id : Nat) (user : Text) :
    Edit := do
  let (ret, file) ← addgrouptojail db file group_id (some user)
  if ret = 0 then pure (0, file)
  else
    match file.openUpdate with
    | none => pure (0, file)
    | some content => do
        let (ret, content) ← memberLoop group_id user content 0 (readlines content)
        pure (ret, { file with content := some content })

def passwdEntry (jail user shell : Text) (pw : Account) : Text :=
  user ++ ":x:".toList ++ pyStr pw.pw_uid ++ [':'] ++ pyStr pw.pw_gid ++ [':'] ++ pw.pw_gecos ++
    [':'] ++ addusertojailHome jail pw.pw_dir ++ [':'] ++ shell

def addusertojail (db : Databases) (file : PyFile) (jail user shell : Text) : Edit :=
  if testUserExist user file.content then .ok (1, file)
  else
    match db.getpwnam user with
    | none => .error .keyError
    | some pw => do
        -- before anything is written
        let _ ← dirinjail pw.pw_dir (striptrailingslash jail)
        pure (appendEntry file (passwdEntry jail user shell pw))

/-- The lines are those of before, with one more if none had that name. -/
def AddsLine (name entry : Text) (old new : List Text) : Prop :=
  (∃ l ∈ old, Names name l) ∧ new = old ∨ (¬ ∃ l ∈ old, Names name l) ∧ new = old ++ [entry]

def membersOf (field : Text) : List Text := if field = [] then [] else field.splitOn ','

/-- In the line of that group number the user is a member, behind those of before. -/
def Joins (group_id : Nat) (user line line' : Text) : Prop :=
  ∃ name passwd gid field, line.splitOn ':' = [name, passwd, gid, field] ∧
    pyInt gid = some (group_id : Int) ∧
    line' = if user ∈ membersOf field then line
      else join ':' [name, passwd, gid, join ',' (membersOf field ++ [user])]

/-- One line with that group number has the user as a member now. -/
def JoinsOne (group_id : Nat) (user : Text) (old new : List Text) : Prop :=
  ∃ pre line line' post, old = pre ++ line :: post ∧ new = pre ++ line' :: post ∧
    Joins group_id user line line'

end Jailkit.Tools
