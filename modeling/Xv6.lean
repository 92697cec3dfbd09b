import Xv6.Basic
import Xv6.Trace
import Xv6.Ring
import Xv6.Pipe
import Xv6.Bytes
import Xv6.Redo
import Xv6.Disk
import Xv6.Log
import Xv6.LogCrash
import Xv6.LogSpace
import Xv6.LogGroup
import Xv6.PipeWake
import Xv6.Bio
import Xv6.ItableRun
import Xv6.BuddyRun
import Xv6.FsRun
import Xv6.FsContent
import Xv6.FsRead
import Xv6.FileRun
import Xv6.VirtioRun
import Xv6.ProcClean
import Xv6.ProcWait
import Xv6.SchedRun
import Xv6.ShellParse
import Xv6.ShellWords
import Xv6.HttpSafe
import Xv6.HttpRequest
import Xv6.UmallocRun
import Xv6.UmallocBrk
import Xv6.PipeRead
import Xv6.FsQuota
import Xv6.FsWrite
import Xv6.FsEdit
import Xv6.FsDir
import Xv6.FsCustody
import Xv6.Namei
import Xv6.FsShare
import Xv6.LinkCount
import Xv6.Trie
import Xv6.Vm
import Xv6.VmTable
import Xv6.VmMap
import Xv6.VmCopy
import Xv6.VmSpace
import Xv6.VmGrow
import Xv6.VmFree
import Xv6.VmProc
import Xv6.VmFork
import Xv6.Grep
import Xv6.GrepLines
import Xv6.Console
import Xv6.Numeral
import Xv6.Printf
import Xv6.PrintfPieces
import Xv6.Memmove
import Xv6.ListWords
import Xv6.Intr
import Xv6.IntrRun
