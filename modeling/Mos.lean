import Mos.LiveInv
import Mos.SchedInv
import Mos.SchedRun
import Mos.KernelRun
import Mos.Isolation
import Mos.KernelWindow
import Mos.Translation
import Mos.IpcOnce
import Mos.IpcAsked
import Mos.Lib.Ring
import Mos.Pipe
import Mos.PipeInv
import Mos.PipeEof
import Mos.Fd
import Mos.PipeRefs
import Mos.PipeClosed
import Mos.IpcSend
import Mos.UserWindow
import Mos.Lib.Turns
import Mos.RoundRobin
import Mos.Asids
import Mos.EnvNames
import Mos.UserMode
import Mos.SharedWindow
import Mos.Shell
import Mos.ShellLine
import Mos.Fsipc
import Mos.FsipcMatch
import Mos.Elf
import Mos.ElfLoad
import Mos.ElfImage
import Mos.ElfAgree
import Mos.FailedCalls
import Mos.Dev
import Mos.Destroy
import Mos.Cow
import Mos.Counts
import Mos.MemSafety
import Mos.InitStack
import Mos.PageTrees
import Mos.PageMap
import Mos.FsAlloc
import Mos.Strcpy
import Mos.TrapMemory
import Mos.FsFile
import Mos.FsPath
import Mos.SyscallReturn
import Mos.TlbMod
import Mos.FsCreate
import Mos.FsRemove
import Mos.FsNewFile
import Mos.FdDup
import Mos.FdTable
import Mos.Lib.LineEdit
import Mos.OpenTab
import Mos.Readline
import Mos.Tokens
import Mos.Queue
import Mos.MemString
import Mos.ShellArgs
import Mos.Debugf
import Mos.Refill
import Mos.GetPath
import Mos.History
import Mos.Print
import Mos.ForkCopy
import Mos.Ide
import Mos.BlockCache
import Mos.Fsformat
import Mos.FsImage
import Mos.Vdebugf
import Mos.WriteBack
import Mos.FsInit
import Mos.CopyCalls
import Mos.ModeRun
import Mos.WindowCalls
