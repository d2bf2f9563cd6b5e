import Xv6.Lib.CInt
import Xv6.Lib.Loop
import Xv6.Lib.Sat
import Xv6.Lib.Ring
import Xv6.Lib.LineEdit
import Xv6.Console.Basic
import Xv6.Console.Cga
import Xv6.Console.Edit
import Xv6.Console.Tab
import Xv6.Console.Intr
import Xv6.Console.Read
import Xv6.Console.Steps
import Xv6.Console.Refine
import Xv6.Console.Commit
import Xv6.Console.Cursor
import Xv6.Console.Select
import Xv6.Proc.Table
import Xv6.Proc.Kill
import Xv6.Lib.Disk
import Xv6.Log.Basic
import Xv6.Log.Crash
import Xv6.Log.Space
import Xv6.Log.Group
import Xv6.Proc.Tree
import Xv6.Pipe.Basic
import Xv6.Pipe.Fifo
import Xv6.Syscall.Args
import Xv6.Syscall.Inside
import Xv6.Proc.Reap
import Xv6.File.Basic
import Xv6.File.Refs
import Xv6.File.Calls
import Xv6.Console.Undo
import Xv6.Console.Clip
import Xv6.Lib.LinkRing
import Xv6.Bio.Cache
import Xv6.Bio.System
import Xv6.Console.Word
import Xv6.Lib.Lcp
import Xv6.Console.Complete
import Xv6.Lib.Bytes
import Xv6.Lib.Pieces
import Xv6.Lib.CStr
import Xv6.Fs.Format
import Xv6.Fs.Inode
import Xv6.Fs.Alloc
import Xv6.Fs.Map
import Xv6.Fs.Content
import Xv6.Fs.Dir
import Xv6.Fs.Path
import Xv6.User.FindSum
import Xv6.User.Grep
import Xv6.User.Umalloc
import Xv6.String.Memmove
import Xv6.Console.Kbd
import Xv6.User.Sh
import Xv6.User.ShLex
import Xv6.User.ShGrammar
import Xv6.Vm.Mmu
import Xv6.Vm.Space
import Xv6.Vm.Uvm
import Xv6.Vm.Own
import Xv6.Vm.Grow
import Xv6.Vm.Free
import Xv6.Vm.Kvm
import Xv6.Vm.Fork
