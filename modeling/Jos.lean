import Jos.Kern.Accounting
import Jos.Kern.Trapframe
import Jos.Kern.IpcPage
import Jos.Kern.IpcOnce
import Jos.Kern.Zombie
import Jos.Kern.Atomic
import Jos.Kern.WriteAccess
import Jos.Kern.Family
import Jos.Kern.BigLock
import Jos.Kern.Cputs
import Jos.Kern.Load
import Jos.User.ForkSpec
import Jos.Fs.Serv
import Jos.Fs.DirSize
import Jos.Fs.Lookup
import Jos.Fs.FullDisk
import Jos.Fs.Mount
import Jos.User.Pfentry
import Jos.User.Pipe
import Jos.User.PipeRefs
import Jos.User.Spawn
import Jos.Fs.SharedFd
import Jos.Fs.OpenFiles
import Jos.Fs.Growth
import Jos.Fs.SizeAgrees
import Jos.Fs.Failed
import Jos.Kern.RoundRobin
import Jos.Kern.Permissions
import Jos.Kern.PageMap
import Jos.Kern.Receiver
import Jos.Kern.Privilege
import Jos.Kern.EnvIds
import Jos.User.PipeWrap
import Jos.Kern.FaultStack
import Jos.Fs.Create
import Jos.Fs.OpenForever
import Jos.Fs.BlockCache
import Jos.Fs.Bitmap
import Jos.User.Dup
import Jos.User.FileReqs
import Jos.User.InitStack
import Jos.User.AllOrNothing
import Jos.Kern.FirstFault
import Jos.Kern.Stabs
import Jos.Kern.Kdebug
import Jos.Kern.BootMap
import Jos.Kern.SlotReuse
import Jos.Kern.Mpconfig
import Jos.Kern.EnvFreeList
import Jos.Kern.PageInit
import Jos.Kern.PageList
import Jos.Kern.LowFirst
import Jos.Kern.Console
import Jos.User.Readline
import Jos.User.Tokens
import Jos.User.Runcmd
import Jos.User.Args
import Jos.User.Printfmt
import Jos.User.Printnum
import Jos.User.Snprintf
import Jos.User.Memmove
import Jos.Kern.Contents
import Jos.User.Snapshot
import Jos.Lib.WriteBack
import Jos.Fs.Restart
import Jos.Kern.Context
import Jos.Lib.Chunks
import Jos.User.Fprintf
import Jos.User.Cprintf
import Jos.User.Devcons
import Jos.User.Wait
