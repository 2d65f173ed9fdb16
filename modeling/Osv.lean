import Osv.Lib.Prog
import Osv.Lib.Run
import Osv.Lib.Waiters
import Osv.Lib.Bytes
import Osv.Lib.Owner
import Osv.Lib.Dyadic
import Osv.Lib.Tiling
import Osv.Lib.Follow
import Osv.Base
import Osv.Pmem.Basic
import Osv.Pmem.Rep
import Osv.Pmem.Buddy
import Osv.Pmem.Calls
import Osv.Pmem.Init
import Osv.Pmem.Run
import Osv.Vm.PageTable
import Osv.Vm.Unmap
import Osv.Vm.Copy
import Osv.Vm.Space
import Osv.Vm.Load
import Osv.Vm.Fork
import Osv.Vm.Overlap
import Osv.Vm.Own
import Osv.Vm.Shared
import Osv.Sync.Bbq
import Osv.Sync.Pipe
import Osv.Sync.Sleeplock
import Osv.Sched.Basic
import Osv.Sched.Places
import Osv.Sched.Reclaim
import Osv.Fs.Basic
import Osv.Fs.Sfs
import Osv.Fs.Block
import Osv.Fs.Jbd
import Osv.Fs.Volume
import Osv.Fs.Rep
import Osv.Fs.Txn
import Osv.Fs.GetBlock
import Osv.Fs.Dir
import Osv.Fs.Insert
import Osv.Fs.Names
import Osv.Fs.Write
import Osv.Dev.Console
import Osv.Dev.Ide
import Osv.Dev.Mp
import Osv.Vm.Tables
import Osv.Vm.PageMap
import Osv.Vm.Destroy
import Osv.Pmem.Handover
import Osv.Vm.Frames
import Osv.Vm.Process
import Osv.Vm.UserPtr
import Osv.Fs.Logs
import Osv.Lib.Calls
import Osv.Fs.Vfs
import Osv.Fs.Threads
import Osv.Pmem.Fit
import Osv.Fs.Cleanup
import Osv.Fs.Delete
import Osv.Fs.Solo
import Osv.Fs.Reclaim
import Osv.Fs.Position
import Osv.Fs.Lookup
import Osv.Fs.Readdir
import Osv.Fs.Headers
import Osv.Vm.Regions
import Osv.Lib.Words
import Osv.Vm.Loader
import Osv.Vm.Image
import Osv.Radix.Tree
import Osv.Radix.Shape
import Osv.Lib.CString
import Osv.Proc.SpawnArgs
import Osv.User.Shell
import Osv.Fs.Refs
import Osv.Proc.Process
import Osv.Proc.Fork
import Osv.Proc.Spawn
import Osv.Proc.Table
import Osv.Proc.Files
import Osv.Proc.Pipes
import Osv.Str.Move
