import Rxv64.Lib.Layout
import Rxv64.Disk
import Rxv64.Fslog.Log
import Rxv64.Fslog.Crash
import Rxv64.Fslog.Protocol
import Rxv64.Fslog.Reserve
import Rxv64.Bio.Cache
import Rxv64.Bio.Recency
import Rxv64.Bio.Refine
import Rxv64.Sys.Accounting
import Rxv64.Fs.Shared
import Rxv64.Fs.Icache
import Rxv64.Fs.Sound
import Rxv64.Fs.Entries
import Rxv64.Fs.Safety
import Rxv64.Fs.Ownership
import Rxv64.Fs.Directory
import Rxv64.Fs.Path
import Rxv64.Fs.Bitmap
import Rxv64.Sync.Sleeplock
import Rxv64.Sync.PipeEnds
import Rxv64.Sync.PipeSlab
import Rxv64.Bio.Queue
import Rxv64.Sys.FileTable
import Rxv64.Sys.PipeCall
import Rxv64.Procs.Wait
import Rxv64.Vm.Boot
import Rxv64.Vm.Protect
import Rxv64.Console
import Rxv64.Acpi
import Rxv64.Ulib.Mem
import Rxv64.Cmd.Match
import Rxv64.Cmd.Grep
import Rxv64.Cmd.Syntax
import Rxv64.Ulib.Search
import Rxv64.Ulib.Break
import Rxv64.Ulib.Printf
import Rxv64.Vm.Growth
import Rxv64.Vm.KernelMap
import Rxv64.Vm.Vector
import Rxv64.Fs.Journal
import Rxv64.Fs.Recovery
