import Xv6.Framework.Hoare
import Xv6.Kernel.Fs.Layout
import Xv6.Kernel.Log.Machine

namespace Xv6.Fs

open ByteCodec Hoare Function

inductive Panic
  | tooBig
  | outsideTrans
  | freeingFreeBlock
  | igetNoInodes
  | ilock
  | ilockNoType
  | iunlock
  | bmapOutOfRange
  | dirlookupNotDir
  | dirlookupRead
  | dirlinkRead
  | isdiremptyReadi
  | unlinkNlink
  | unlinkWritei
  | filedup
  | fileclose
  | fileread
  | filewrite
  | initExiting
  deriving DecidableEq, Repr

def Panic.msg : Panic → String
  | .tooBig => "too big a transaction"
  | .outsideTrans => "log_write outside of trans"
  | .freeingFreeBlock => "freeing free block"
  | .igetNoInodes => "iget: no inodes"
  | .ilock => "ilock"
  | .ilockNoType => "ilock: no type"
  | .iunlock => "iunlock"
  | .bmapOutOfRange => "bmap: out of range"
  | .dirlookupNotDir => "dirlookup not DIR"
  | .dirlookupRead => "dirlookup read"
  | .dirlinkRead => "dirlink read"
  | .isdiremptyReadi => "isdirempty: readi"
  | .unlinkNlink => "unlink: nlink < 1"
  | .unlinkWritei => "unlink: writei"
  | .filedup => "filedup"
  | .fileclose => "fileclose"
  | .fileread => "fileread"
  | .filewrite => "filewrite"
  | .initExiting => "init exiting"

/-- How a system call can fail to return: a panic, a process waiting for itself, or a loop of the
model that is cut off. -/
inductive Stop
  | panic (p : Panic)
  | deadlock
  | endless
  deriving DecidableEq, Repr

/-- `struct inode`; `din` is the copy of the disk inode. -/
structure Inode where
  dev : Nat
  inum : Nat
  ref : Nat
  locked : Bool
  valid : Bool
  din : Dinode

inductive FdType
  | none
  | pipe
  | inode
  | device
  deriving DecidableEq, Repr

/-- `struct file`; `pipe` numbers the pipes in the order they are made. -/
structure File where
  type : FdType
  ref : Nat
  readable : Bool
  writable : Bool
  pipe : Nat
  ip : Fin NINODE
  off : Nat
  major : Int16

/-- `struct pipe`, and how often its page has been freed. -/
structure Pipe where
  readopen : Bool
  writeopen : Bool
  freed : Nat
  deriving DecidableEq

/-- What the file system keeps in `struct proc`. -/
structure Proc where
  used : Bool
  cwd : Fin NINODE
  ofile : Fin NOFILE → Option (Fin NFILE)

/-- What has happened: blocks allocated, those of them by `readi`, the entries of each directory
`iput` has freed, whether an entry was ever added to a directory without links, whether a link count
of 32767 was ever incremented, the disks that were committed, the last one first, and whether
`begin_op` was ever called inside of an operation or `end_op` or `iput` outside of one. -/
structure History where
  allocs : Nat
  readAllocs : Nat
  freedDirs : List (List Dirent)
  deadParent : Bool
  linkMax : Bool
  commits : List Disk
  unbracketed : Bool

/-- The file system at run time. `disk` is what `bread` returns; `outstanding` and `lh` are the
log's; `npipe` pipes have been made. -/
structure State where
  disk : Disk
  inode : Fin NINODE → Inode
  file : Fin NFILE → File
  pipe : Nat → Pipe
  npipe : Nat
  proc : Fin NPROC → Proc
  outstanding : Nat
  lh : List Nat
  hist : History

abbrev FsM (α : Type) : Type := Prog State Stop α

def panic {α : Type} (p : Panic) : FsM α := throw (.panic p)

def getInode (e : Fin NINODE) : FsM Inode := do
  let s ← get
  return s.inode e

def setInode (e : Fin NINODE) (f : Inode → Inode) : FsM PUnit :=
  modify fun s => { s with inode := update s.inode e (f (s.inode e)) }

def setFile (f : Fin NFILE) (g : File → File) : FsM PUnit :=
  modify fun s => { s with file := update s.file f (g (s.file f)) }

def setProc (p : Fin NPROC) (g : Proc → Proc) : FsM PUnit :=
  modify fun s => { s with proc := update s.proc p (g (s.proc p)) }

def note (f : History → History) : FsM PUnit := modify fun s => { s with hist := f s.hist }

def bread (b : Nat) : FsM Block := do
  let s ← get
  return s.disk b

/-- `log_write` of block `b` whose buffer now holds `data`. -/
def logWrite (sb : Superblock) (b : Nat) (data : Block) : FsM PUnit := do
  let s ← get
  if LOGSIZE ≤ s.lh.length ∨ sb.nlog - 1 ≤ s.lh.length then panic .tooBig
  else if s.outstanding < 1 then panic .outsideTrans
  else set { s with disk := update s.disk b data, lh := Log.absorb s.lh b }

/-- Records a call that is not where it should be. -/
def noteUnless (ok : Bool) : FsM PUnit :=
  note fun h => { h with unbracketed := h.unbracketed || !ok }

/-- With system calls run one at a time nobody else would end the wait. -/
def beginOp : FsM PUnit := do
  let s ← get
  noteUnless (s.outstanding = 0)
  if Log.NoSpace s.lh.length s.outstanding then throw .deadlock
  else modify fun s => { s with outstanding := s.outstanding + 1 }

/-- The last operation commits, which leaves what `bread` returns as it is. From then on a crash
and recovery lead to this disk, until the next commit. -/
def endOp : FsM PUnit := do
  let s ← get
  noteUnless (0 < s.outstanding)
  if s.outstanding - 1 = 0 then do
    note fun h => { h with commits := s.disk :: h.commits }
    modify fun s => { s with outstanding := 0, lh := [] }
  else modify fun s => { s with outstanding := s.outstanding - 1 }

/-- User memory as a source: its bytes, and of a copy of `m` bytes from `off` how many are copied
before a bad page. -/
structure Source where
  byte : Nat → UInt8
  good : Nat → Nat → Nat

def Source.kernel (bytes : Nat → UInt8) : Source := ⟨bytes, fun _ m => m⟩

end Xv6.Fs
