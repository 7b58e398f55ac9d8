import Jailkit.Socketd.Limiter
import Jailkit.Ini.Lookup
import Jailkit.Ini.Exact
import Jailkit.Ini.HeaderSearch
import Jailkit.Ini.RoundTrip
import Jailkit.JkLib.SafePath
import Jailkit.Lib.Program
import Jailkit.Ini.Section
import Jailkit.Wrapper.Calls
import Jailkit.Wrapper.Chrootsh
import Jailkit.Wrapper.ProcmailWrapper
import Jailkit.Wrapper.Uchroot
import Jailkit.Wrapper.Privileges
import Jailkit.Wrapper.HomePolicy
import Jailkit.Lsh.Main
import Jailkit.Lsh.Options
import Jailkit.Lsh.Allowed
import Jailkit.JkLib.JailDir
import Jailkit.Tools.JailUser
import Jailkit.Lib.Files
import Jailkit.Lib.Locating
import Jailkit.Lib.Ways
import Jailkit.Lib.Walks
import Jailkit.JkLib.Targets
import Jailkit.Lib.Raising
import Jailkit.Tools.Calls
import Jailkit.Tools.MoveDir
import Jailkit.Tools.Execute
import Jailkit.Tools.HomeOnly
import Jailkit.Tools.Copy
import Jailkit.Tools.Suid
import Jailkit.Check.RealPasswd
import Jailkit.Wrapper.Chrootlaunch
import Jailkit.Wrapper.Descriptors
import Jailkit.Wrapper.SetuidShell
import Jailkit.Tools.Unforced
import Jailkit.Tools.Containment
import Jailkit.Tools.CopyContained
import Jailkit.Tools.Mirror
import Jailkit.Tools.Mirroring
import Jailkit.Tools.MirrorRun
import Jailkit.Update.Scan
import Jailkit.Update.InsideJail
import Jailkit.Lib.Trees
import Jailkit.Update.Deprecated
import Jailkit.Update.Cleanup
import Jailkit.Check.Chrootfiles
import Jailkit.Socketd.Config
import Jailkit.Socketd.Sender
import Jailkit.Tools.Accounts
import Jailkit.Tools.AccountEdits
import Jailkit.JkLib.PasswdGroup
import Jailkit.JkLib.Populate
import Jailkit.Lib.Graphs
import Jailkit.Tools.InitSections
import Jailkit.Tools.LogSocket
import Jailkit.Socketd.Sockets
import Jailkit.JkLib.JailSafe
import Jailkit.Wrapper.AllowedJails
import Jailkit.Wrapper.LaunchPrivileges
import Jailkit.Wrapper.LaunchExec
import Jailkit.Tools.Resolution
import Jailkit.Tools.InitAccounts
import Jailkit.JkLib.Explode
import Jailkit.Update.NeedUpdate
import Jailkit.Wrapper.Environ
import Jailkit.PasswdParser.FindLine
import Jailkit.PasswdParser.Getpwuid
import Jailkit.Ini.Comments
import Jailkit.Ini.LastLine
import Jailkit.Ini.Buffers
import Jailkit.Lib.Changes
import Jailkit.Tools.MoveKeeps
import Jailkit.JkLib.Ancestors
import Jailkit.JkLib.SplitPath
import Jailkit.Lsh.Candidates
import Jailkit.Wrapper.LaunchIds
import Jailkit.JkLib.Indices
import Jailkit.Lsh.CommandWord
import Jailkit.Socketd.FirstRound
import Jailkit.Lib.Additions
import Jailkit.Tools.HandledFiles
import Jailkit.Tools.Untouched
import Jailkit.Tools.InitCopies
import Jailkit.Lib.Interleaved
import Jailkit.Socketd.Daemon
import Jailkit.PasswdParser.RoundTrip
import Jailkit.Wrapper.Login
import Jailkit.Tools.GroupTable
import Jailkit.Tools.JailUserRun
import Jailkit.Check.AuditedUsers
import Jailkit.Tools.InitBody
import Jailkit.Ini.Settings
import Jailkit.Lsh.Settings
import Jailkit.Lsh.Session
import Jailkit.Wrapper.Delivery
import Jailkit.Tools.Populating
import Jailkit.Wrapper.JailedExec
