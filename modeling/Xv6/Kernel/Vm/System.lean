import Xv6.Framework.Counting
import Xv6.Framework.Transition
import Xv6.Kernel.Vm.Exec

namespace Xv6.Vm

open ByteCodec Hoare Function

scoped instance : NeZero NPROC := ⟨by decide⟩

inductive ProcState
  | UNUSED
  | USED
  | SLEEPING
  | RUNNABLE
  | RUNNING
  | ZOMBIE
  deriving DecidableEq

inductive FdType
  | FD_NONE
  | FD_PIPE
  | FD_INODE
  | FD_DEVICE
  deriving DecidableEq

/-- `struct file`. A pipe is known by the address of its page, an inode by a number. -/
structure File where
  type : FdType
  ref : Nat
  readable : Bool
  writable : Bool
  pipe : Nat
  ip : Nat

/-- `struct proc`, as far as it is about memory and files, with the name for debugging. -/
structure Proc where
  state : ProcState
  pid : Nat
  parent : Option (Fin NPROC)
  killed : Bool
  xstate : Nat
  sz : Nat
  pagetable : Nat
  trapframe : Nat
  ofile : Fin NOFILE → Option (Fin NFILE)
  cwd : Option Nat
  name : List UInt8

/-- Memory, the process table, the file table and the reference counts of the inodes. -/
structure Sys where
  mem : Mem
  proc : Fin NPROC → Proc
  file : Fin NFILE → File
  iref : Nat → Nat
  nextpid : Nat
  initproc : Fin NPROC

abbrev SysM (α : Type) : Type := Prog Sys Stop α

def onMem {α : Type} (x : MemM α) : SysM α := fun S =>
  match x S.mem with
  | .ok (a, m) => .ok (a, { S with mem := m })
  | .error e => .error e

def setProc (i : Fin NPROC) (f : Proc → Proc) : SysM Unit :=
  modify fun S => { S with proc := update S.proc i (f (S.proc i)) }

def setFile (f : Fin NFILE) (g : File → File) : SysM Unit :=
  modify fun S => { S with file := update S.file f (g (S.file f)) }

/-- The places of the registers in `struct trapframe`, in words, and its size. -/
def Trapframe.epc : Nat := 3
def Trapframe.sp : Nat := 6
def Trapframe.a0 : Nat := 14
def Trapframe.a1 : Nat := 15
def Trapframe.size : Nat := 288

/-- The fields of `struct pipe`, in units of an `int`. -/
def Pipe.nread : Nat := 134
def Pipe.nwrite : Nat := 135
def Pipe.readopen : Nat := 136
def Pipe.writeopen : Nat := 137

/-- The field for the end that is written to, or the other one. -/
def Pipe.flag (writable : Bool) : Nat := if writable then Pipe.writeopen else Pipe.readopen

/-- `((int *)pa)[i]`. -/
def Mem.int (s : Mem) (pa i : Nat) : Nat := (u32.get (s.page (pa / PGSIZE)) i).toNat

def Mem.setInt (s : Mem) (pa i v : Nat) : Mem :=
  s.setPage pa (u32.put (s.page (pa / PGSIZE)) i (UInt32.ofNat v))

/-- `safestrcpy` of the string `t` to the array `s`, of which `n` bytes may be written. After a short
string it writes a second zero. -/
def safestrcpy : List UInt8 → List UInt8 → Nat → List UInt8
  | s, _, 0 => s
  | s, _, 1 => 0 :: s.tail
  | s, [], _ + 2 => 0 :: 0 :: s.drop 2
  | s, c :: t, n + 2 => if c = 0 then 0 :: 0 :: s.drop 2 else c :: safestrcpy s.tail t (n + 1)

/-- The loop of `exec` over the path: what follows the last slash. -/
def lastElem : List UInt8 → List UInt8 → List UInt8
  | last, [] => last
  | last, c :: s => lastElem (if c = 47 then s else last) s

def Proc.nameSize : Nat := 16

def intBytes (v : Nat) : List UInt8 := List.ofFn (u32.enc (UInt32.ofNat v))

section

variable [Machine]

def freeMem (trapframe pagetable sz : Nat) : MemM Unit := do
  if trapframe ≠ 0 then kfree trapframe
  if pagetable ≠ 0 then procFreepagetable pagetable sz

def freeproc (i : Fin NPROC) : SysM Unit := do
  let S ← get
  onMem (freeMem (S.proc i).trapframe (S.proc i).pagetable (S.proc i).sz)
  setProc i fun p => { p with
    trapframe := 0, pagetable := 0, sz := 0, pid := 0, parent := none, killed := false, xstate := 0
    name := 0 :: p.name.tail, state := .UNUSED }

def allocpid : SysM Nat := do
  let S ← get
  set { S with nextpid := (S.nextpid + 1) % 2 ^ 32 }
  pure S.nextpid

/-- `allocproc`, with the slot if it does not return 0. -/
def allocproc : SysM (Option (Fin NPROC)) := do
  let S ← get
  match (List.finRange NPROC).find? fun i => (S.proc i).state = .UNUSED with
  | none => pure none
  | some i => do
      let pid ← allocpid
      setProc i fun p => { p with pid := pid, state := .USED }
      let trapframe ← onMem kalloc
      setProc i fun p => { p with trapframe := trapframe }
      if trapframe = 0 then do
        freeproc i
        pure none
      else do
        let pagetable ← onMem (procPagetable trapframe)
        setProc i fun p => { p with pagetable := pagetable }
        if pagetable = 0 then do
          freeproc i
          pure none
        else pure (some i)

/-- The new value of `sz`, `none` if `growproc` returns -1. -/
def growMem (pagetable sz : Nat) (n : Int) : MemM (Option Nat) := do
  if 0 < n then do
    let sz1 ← uvmalloc pagetable sz (((sz : Int) + n) % 2 ^ 64).toNat PTE_W
    pure (if sz1 = 0 then none else some sz1)
  else if n < 0 then do
    let sz1 ← uvmdealloc pagetable sz (((sz : Int) + n) % 2 ^ 64).toNat
    pure (some sz1)
  else pure (some sz)

/-- Whether `growproc` returns 0. -/
def growproc (i : Fin NPROC) (n : Int) : SysM Bool := do
  let S ← get
  let sz ← onMem (growMem (S.proc i).pagetable (S.proc i).sz n)
  match sz with
  | none => pure false
  | some sz => do
      setProc i fun p => { p with sz := sz }
      pure true

def filedup (f : Fin NFILE) : SysM Unit := do
  let S ← get
  if (S.file f).ref < 1 then throw (.panic .filedup)
  setFile f fun x => { x with ref := x.ref + 1 }

def idup (ip : Nat) : SysM Unit :=
  modify fun S => { S with iref := update S.iref ip (S.iref ip + 1) }

/-- `iput`, as far as the reference count goes. -/
def iput (ip : Nat) : SysM Unit :=
  modify fun S => { S with iref := update S.iref ip (S.iref ip - 1) }

/-- The loop of `fork` over the open files. -/
def dupFiles (i np : Fin NPROC) : List (Fin NOFILE) → SysM Unit
  | [] => pure ()
  | fd :: fds => do
      let S ← get
      match (S.proc i).ofile fd with
      | none => dupFiles i np fds
      | some f => do
          filedup f
          setProc np fun p => { p with ofile := update p.ofile fd (some f) }
          dupFiles i np fds

def dupCwd (i np : Fin NPROC) : SysM Unit := do
  let S ← get
  match (S.proc i).cwd with
  | none => pure ()
  | some ip => do
      idup ip
      setProc np fun p => { p with cwd := some ip }

/-- The end of `fork`, with a copy of the memory in the child. -/
def forkShare (i np : Fin NPROC) : SysM Unit := do
  let S ← get
  setProc np fun p => { p with sz := (S.proc i).sz }
  onMem (modify fun m =>
    m.setBytes (S.proc np).trapframe (m.bytes (S.proc i).trapframe Trapframe.size))
  onMem (modify fun m => m.setWord (S.proc np).trapframe Trapframe.a0 0)
  dupFiles i np (List.finRange NOFILE)
  dupCwd i np
  setProc np fun p => { p with name := safestrcpy p.name (S.proc i).name Proc.nameSize }
  setProc np fun p => { p with parent := some i }
  setProc np fun p => { p with state := .RUNNABLE }

/-- The pid of the child, `none` if `fork` returns -1. -/
def fork (i : Fin NPROC) : SysM (Option Nat) := do
  let np ← allocproc
  match np with
  | none => pure none
  | some np => do
      let S ← get
      let copied ← onMem (uvmcopy (S.proc i).pagetable (S.proc np).pagetable (S.proc i).sz)
      if copied = false then do
        freeproc np
        pure none
      else do
        forkShare i np
        pure (some (S.proc np).pid)

/-- `exec` in a process, of the file that `namei` finds at the path: `argc`, `none` if it returns
-1. -/
def exec (i : Fin NPROC) (path : List UInt8) (file : Option (List UInt8))
    (argv : List (List UInt8)) : SysM (Option Nat) := do
  let S ← get
  let loaded ← onMem (execImage (S.proc i).trapframe file argv)
  match loaded with
  | none => pure none
  | some l => do
      onMem (modify fun m => m.setWord (S.proc i).trapframe Trapframe.a1 l.sp)
      setProc i fun p => { p with name := safestrcpy p.name (lastElem path path) Proc.nameSize }
      setProc i fun p => { p with pagetable := l.pagetable, sz := l.sz }
      onMem (modify fun m => m.setWord (S.proc i).trapframe Trapframe.epc l.entry)
      onMem (modify fun m => m.setWord (S.proc i).trapframe Trapframe.sp l.sp)
      onMem (procFreepagetable (S.proc i).pagetable (S.proc i).sz)
      pure (some l.argc)

/-- `fetchaddr`, for a process with the given page table and size. -/
def fetchaddr (pagetable sz addr : Nat) : MemM (Option Nat) := do
  if sz ≤ addr ∨ sz < (addr + 8) % 2 ^ 64 then pure none
  else do
    let bs ← copyin pagetable addr 8
    pure (bs.map fun bs => leNat bs 0 8)

/-- The loop of `sys_exec` over at most `n` arguments: whether it gets to a null pointer, and the
strings with the pages they are in. -/
def fetchArgv (pagetable sz uargv : Nat) :
    Nat → List (Nat × List UInt8) → MemM (Bool × List (Nat × List UInt8))
  | 0, argv => pure (false, argv)
  | n + 1, argv => do
      let uarg ← fetchaddr pagetable sz ((uargv + 8 * argv.length) % 2 ^ 64)
      match uarg with
      | none => pure (false, argv)
      | some uarg =>
          if uarg = 0 then pure (true, argv)
          else do
            let page ← kalloc
            if page = 0 then pure (false, argv)
            else do
              let str ← copyinstr pagetable uarg PGSIZE
              match str with
              | none => pure (false, argv ++ [(page, [])])
              | some str => do
                  modify fun s => s.setBytes page str
                  fetchArgv pagetable sz uargv n (argv ++ [(page, str.dropLast)])

def kfreeAll : List Nat → MemM Unit
  | [] => pure ()
  | p :: ps => do
      kfree p
      kfreeAll ps

/-- `sys_exec`, with the path if it could be fetched. -/
def sysExec (i : Fin NPROC) (path : Option (List UInt8)) (file : Option (List UInt8))
    (uargv : Nat) : SysM (Option Nat) := do
  match path with
  | none => pure none
  | some path => do
    let S ← get
    let args ← onMem (fetchArgv (S.proc i).pagetable (S.proc i).sz uargv MAXARG [])
    if args.1 = false then do
      onMem (kfreeAll (args.2.map Prod.fst))
      pure none
    else do
      let ret ← exec i path file (args.2.map Prod.snd)
      onMem (kfreeAll (args.2.map Prod.fst))
      pure ret

def filealloc : SysM (Option (Fin NFILE)) := do
  let S ← get
  match (List.finRange NFILE).find? fun f => (S.file f).ref = 0 with
  | none => pure none
  | some f => do
      setFile f fun x => { x with ref := 1 }
      pure (some f)

/-- `pipeclose` of the page `pi`. -/
def pipeclose (pi : Nat) (writable : Bool) : MemM Unit := do
  modify fun s => s.setInt pi (Pipe.flag writable) 0
  let s ← get
  if s.int pi Pipe.readopen = 0 ∧ s.int pi Pipe.writeopen = 0 then kfree pi

def fileclose (f : Fin NFILE) : SysM Unit := do
  let S ← get
  if (S.file f).ref < 1 then throw (.panic .fileclose)
  if 1 < (S.file f).ref then setFile f fun x => { x with ref := x.ref - 1 }
  else do
    setFile f fun x => { x with ref := 0, type := .FD_NONE }
    if (S.file f).type = .FD_PIPE then onMem (pipeclose (S.file f).pipe (S.file f).writable)
    else if (S.file f).type = .FD_INODE ∨ (S.file f).type = .FD_DEVICE then iput (S.file f).ip

/-- The label `bad` of `pipealloc`. -/
def pipeBad (f0 f1 : Option (Fin NFILE)) : SysM (Option (Fin NFILE × Fin NFILE)) := do
  match f0 with
  | none => pure ()
  | some f => fileclose f
  match f1 with
  | none => pure ()
  | some f => fileclose f
  pure none

/-- The two files of a new pipe, `none` if `pipealloc` returns -1. -/
def pipealloc : SysM (Option (Fin NFILE × Fin NFILE)) := do
  let f0 ← filealloc
  match f0 with
  | none => pipeBad none none
  | some f0 => do
      let f1 ← filealloc
      match f1 with
      | none => pipeBad (some f0) none
      | some f1 => do
          let pi ← onMem kalloc
          if pi = 0 then pipeBad (some f0) (some f1)
          else do
            onMem (modify fun s => s.setInt pi Pipe.readopen 1)
            onMem (modify fun s => s.setInt pi Pipe.writeopen 1)
            onMem (modify fun s => s.setInt pi Pipe.nwrite 0)
            onMem (modify fun s => s.setInt pi Pipe.nread 0)
            setFile f0 fun x => { x with
              type := .FD_PIPE, readable := true, writable := false, pipe := pi }
            setFile f1 fun x => { x with
              type := .FD_PIPE, readable := false, writable := true, pipe := pi }
            pure (some (f0, f1))

def fdalloc (i : Fin NPROC) (f : Fin NFILE) : SysM (Option (Fin NOFILE)) := do
  let S ← get
  match (List.finRange NOFILE).find? fun fd => ((S.proc i).ofile fd).isNone with
  | none => pure none
  | some fd => do
      setProc i fun p => { p with ofile := update p.ofile fd (some f) }
      pure (some fd)

def clearFd (i : Fin NPROC) (fd : Fin NOFILE) : SysM Unit :=
  setProc i fun p => { p with ofile := update p.ofile fd none }

def copyFds (pagetable fdarray fd0 fd1 : Nat) : MemM Bool := do
  let copied ← copyout pagetable fdarray (intBytes fd0)
  if copied = false then pure false
  else copyout pagetable ((fdarray + 4) % 2 ^ 64) (intBytes fd1)

/-- The end of `sys_pipe`, with the two descriptors. -/
def pipeFds (i : Fin NPROC) (fdarray : Nat) (rf wf : Fin NFILE) (fd0 fd1 : Fin NOFILE) :
    SysM Bool := do
  let S ← get
  let copied ← onMem (copyFds (S.proc i).pagetable fdarray fd0 fd1)
  if copied = false then do
    clearFd i fd0
    clearFd i fd1
    fileclose rf
    fileclose wf
    pure false
  else pure true

/-- Whether `sys_pipe` returns 0. -/
def sysPipe (i : Fin NPROC) (fdarray : Nat) : SysM Bool := do
  let files ← pipealloc
  match files with
  | none => pure false
  | some (rf, wf) => do
      let fd0 ← fdalloc i rf
      match fd0 with
      | none => do
          fileclose rf
          fileclose wf
          pure false
      | some fd0 => do
          let fd1 ← fdalloc i wf
          match fd1 with
          | none => do
              clearFd i fd0
              fileclose rf
              fileclose wf
              pure false
          | some fd1 => pipeFds i fdarray rf wf fd0 fd1

/-- Whether `sys_close` returns 0. -/
def sysClose (i : Fin NPROC) (fd : Nat) : SysM Bool := do
  if h : fd < NOFILE then do
    let S ← get
    match (S.proc i).ofile ⟨fd, h⟩ with
    | none => pure false
    | some f => do
        clearFd i ⟨fd, h⟩
        fileclose f
        pure true
  else pure false

/-- The loop of `exit` over the open files. -/
def closeFiles (i : Fin NPROC) : List (Fin NOFILE) → SysM Unit
  | [] => pure ()
  | fd :: fds => do
      let S ← get
      match (S.proc i).ofile fd with
      | none => closeFiles i fds
      | some f => do
          fileclose f
          clearFd i fd
          closeFiles i fds

def reparent (i : Fin NPROC) : SysM Unit :=
  modify fun S => { S with proc := fun j =>
    if (S.proc j).parent = some i then { S.proc j with parent := some S.initproc } else S.proc j }

def exit (i : Fin NPROC) (status : Nat) : SysM Unit := do
  let S ← get
  if i = S.initproc then throw (.panic .initExiting)
  closeFiles i (List.finRange NOFILE)
  match (S.proc i).cwd with
  | none => pure ()
  | some ip => iput ip
  setProc i fun p => { p with cwd := none }
  reparent i
  setProc i fun p => { p with xstate := status, state := .ZOMBIE }

/-- The copy of `wait`, if there is an address for it. -/
def copyXstate (pagetable addr xstate : Nat) : MemM Bool :=
  if addr = 0 then pure true else copyout pagetable addr (intBytes xstate)

/-- The pid of a child that has exited; `none` if `wait` returns -1 or has to wait. -/
def wait (i : Fin NPROC) (addr : Nat) : SysM (Option Nat) := do
  let S ← get
  match (List.finRange NPROC).find? fun j =>
      (S.proc j).parent = some i ∧ (S.proc j).state = .ZOMBIE with
  | none => pure none
  | some j => do
      let copied ← onMem (copyXstate (S.proc i).pagetable addr (S.proc j).xstate)
      if copied = false then pure none
      else do
        freeproc j
        pure (some (S.proc j).pid)

/-- Whether `kill` returns 0. -/
def kill (pid : Nat) : SysM Bool := do
  let S ← get
  match (List.finRange NPROC).find? fun j => (S.proc j).pid = pid with
  | none => pure false
  | some j => do
      setProc j fun p => { p with
        killed := true, state := if p.state = .SLEEPING then .RUNNABLE else p.state }
      pure true

def store (i : Fin NPROC) (va : Nat) (b : UInt8) : SysM Unit := do
  let S ← get
  if Writable S.mem (S.proc i).pagetable va then
    onMem (modify fun m => m.setBytes (phys m (S.proc i).pagetable va) [b])

/-- The system calls that have to do with memory, and the user's stores. -/
inductive Call
  | fork
  | exec (path : Option (List UInt8)) (file : Option (List UInt8)) (uargv : Nat)
  | sbrk (n : Int32)
  | pipe (fdarray : Nat)
  | close (fd : Nat)
  | exit (status : Nat)
  | wait (addr : Nat)
  | kill (pid : Nat)
  | store (va : Nat) (b : UInt8)

def call (i : Fin NPROC) : Call → SysM Unit
  | .fork => discard (fork i)
  | .exec path file uargv => discard (sysExec i path file uargv)
  | .sbrk n => discard (growproc i n.toInt)
  | .pipe fdarray => discard (sysPipe i fdarray)
  | .close fd => discard (sysClose i fd)
  | .exit status => exit i status
  | .wait addr => discard (wait i addr)
  | .kill pid => discard (kill pid)
  | .store va b => store i va b

def Step (S : Sys) (l : Fin NPROC × Call) (S' : Sys) : Prop :=
  (S.proc l.1).state = .RUNNABLE ∧ call l.1 l.2 S = .ok ((), S')

/-- The pages that the kernel takes for itself at boot, `none` if there are not enough. -/
def bootAlloc : Nat → MemM (Option (List Nat))
  | 0 => pure (some [])
  | n + 1 => do
      let p ← kalloc
      if p = 0 then pure none
      else do
        let ps ← bootAlloc n
        pure (ps.map (p :: ·))

/-- `uvmfirst`, and whether there was memory for it. -/
def uvmfirst (pagetable : Nat) (src : List UInt8) : MemM Bool := do
  if PGSIZE ≤ src.length then panic .uvmfirst
  let mem ← kalloc
  if mem = 0 then pure false
  else do
    modify fun s => s.memset mem 0
    let mapped ← mappages pagetable 0 PGSIZE mem (PTE_W ||| PTE_R ||| PTE_X ||| PTE_U)
    modify fun s => s.setBytes mem src
    pure mapped

def initName : List UInt8 := [105, 110, 105, 116, 99, 111, 100, 101]

/-- `userinit`, with the number of the root directory's inode. -/
def userinit (initcode : List UInt8) (root : Nat) : SysM Bool := do
  let p ← allocproc
  match p with
  | none => pure false
  | some p => do
      let S ← get
      modify fun S => { S with initproc := p }
      let done ← onMem (uvmfirst (S.proc p).pagetable initcode)
      setProc p fun q => { q with sz := PGSIZE }
      onMem (modify fun m => m.setWord (S.proc p).trapframe Trapframe.epc 0)
      onMem (modify fun m => m.setWord (S.proc p).trapframe Trapframe.sp PGSIZE)
      setProc p fun q => { q with name := safestrcpy q.name initName Proc.nameSize }
      idup root
      setProc p fun q => { q with cwd := some root }
      setProc p fun q => { q with state := .RUNNABLE }
      pure done

/-- The kernel's memory up to the first process. It takes `n` pages for itself, which are returned if
there was memory for everything. -/
def boot (n : Nat) (initcode : List UInt8) (root : Nat) : SysM (Option (List Nat)) := do
  onMem kinit
  let pages ← onMem (bootAlloc n)
  match pages with
  | none => pure none
  | some pages => do
      let done ← userinit initcode root
      pure (if done = true then some pages else none)

end

def Proc.unused : Proc where
  state := .UNUSED
  pid := 0
  parent := none
  killed := false
  xstate := 0
  sz := 0
  pagetable := 0
  trapframe := 0
  ofile := fun _ => none
  cwd := none
  name := List.replicate Proc.nameSize 0

def File.none : File := ⟨.FD_NONE, 0, false, false, 0, 0⟩

def Sys.start (page : Nat → Page) : Sys where
  mem := ⟨page, 0, []⟩
  proc := fun _ => .unused
  file := fun _ => .none
  iref := fun _ => 0
  nextpid := 1
  initproc := 0

/-- The states between calls, after a boot with enough memory in which the kernel has taken the pages
`B`. From then on `kalloc` may fail. -/
inductive Reachable [Machine] (B : List Nat) : Sys → Prop
  | boot {page : Nat → Page} {n : Nat} {initcode : List UInt8} {root : Nat} {S : Sys}
      {fails : List Bool} (h : Vm.boot n initcode root (Sys.start page) = .ok (some B, S)) :
      Reachable B { S with mem := { S.mem with fails := fails } }
  | step {S S' : Sys} {l : Fin NPROC × Call} (h : Reachable B S) (hl : Step S l S') :
      Reachable B S'

end Xv6.Vm
