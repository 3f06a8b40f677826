import Xv6.Kernel.Fs.Dir

namespace Xv6.Fs

open ByteCodec Hoare Function

def MAXPATH : Nat := 128
def O_RDONLY : Nat := 0x000
def O_WRONLY : Nat := 0x001
def O_RDWR : Nat := 0x002
def O_CREATE : Nat := 0x200
def O_TRUNC : Nat := 0x400

/-- `argstr`: the string at a user address whose readable bytes are `mem`, or failure. -/
def argstr (mem : List UInt8) : Option (List UInt8) :=
  let str := (mem.take MAXPATH).takeWhile (· ≠ 0)
  if str.length < (mem.take MAXPATH).length then some str else none

def argfd (p : Fin NPROC) (fd : Int) : FsM (Option (Fin NOFILE × Fin NFILE)) := do
  let s ← get
  if h : 0 ≤ fd ∧ fd.toNat < NOFILE then
    match (s.proc p).ofile ⟨fd.toNat, h.2⟩ with
    | some f => return some (⟨fd.toNat, h.2⟩, f)
    | none => return none
  else return none

/-- The first free descriptor, which takes over the reference to `f`. -/
def fdalloc (p : Fin NPROC) (f : Fin NFILE) : FsM (Option (Fin NOFILE)) := do
  let s ← get
  match (List.finRange NOFILE).find? fun fd => ((s.proc p).ofile fd).isNone with
  | some fd => do
      setProc p fun pr => { pr with ofile := update pr.ofile fd (some f) }
      return some fd
  | none => return none

def clearFd (p : Fin NPROC) (fd : Fin NOFILE) : FsM PUnit :=
  setProc p fun pr => { pr with ofile := update pr.ofile fd none }

def filealloc : FsM (Option (Fin NFILE)) := do
  let s ← get
  match (List.finRange NFILE).find? fun f => (s.file f).ref = 0 with
  | some f => do
      setFile f fun x => { x with ref := 1 }
      return some f
  | none => return none

def filedup (f : Fin NFILE) : FsM PUnit := do
  let s ← get
  if (s.file f).ref < 1 then panic .filedup
  else setFile f fun x => { x with ref := x.ref + 1 }

variable (sb : Superblock)

/-- `kfree` of the page is counted. -/
def pipeclose (i : Nat) (writable : Bool) : FsM PUnit :=
  modify fun s =>
    let pi := s.pipe i
    let pi := if writable then { pi with writeopen := false } else { pi with readopen := false }
    let pi := if pi.readopen = false ∧ pi.writeopen = false then { pi with freed := pi.freed + 1 }
      else pi
    { s with pipe := update s.pipe i pi }

def fileclose (f : Fin NFILE) : FsM PUnit := do
  let s ← get
  if (s.file f).ref < 1 then panic .fileclose
  else if 0 < (s.file f).ref - 1 then setFile f fun x => { x with ref := x.ref - 1 }
  else do
    setFile f fun x => { x with ref := 0, type := .none }
    if (s.file f).type = .pipe then pipeclose (s.file f).pipe (s.file f).writable
    else if (s.file f).type = .inode ∨ (s.file f).type = .device then do
      beginOp
      iput sb (s.file f).ip
      endOp
    else return

/-- `n` as the `uint` parameter of `readi` and `writei`. -/
def toUint (n : Int) : Nat := (n % 2 ^ 32).toNat

/-- `io` is what a pipe or a device returns. -/
def fileread (f : Fin NFILE) (ok : Nat → Nat → Bool) (n io : Int) : FsM Int := do
  let s ← get
  if (s.file f).readable = false then return -1
  else match (s.file f).type with
    | .pipe => return io
    | .device =>
        if (s.file f).major < 0 ∨ (NDEV : Int) ≤ (s.file f).major.toInt then return -1 else return io
    | .inode => do
        ilock sb (s.file f).ip
        let (r, _) ← readi sb (s.file f).ip ok (s.file f).off (toUint n)
        if 0 < r then do
          setFile f fun x => { x with off := (x.off + r.toNat) % 2 ^ 32 }
          iunlock (s.file f).ip
          return r
        else do
          iunlock (s.file f).ip
          return r
    | .none => panic .fileread

def Source.drop (src : Source) (i : Nat) : Source :=
  ⟨fun j => src.byte (i + j), fun j m => src.good (i + j) m⟩

/-- Most bytes one operation of `filewrite` writes. -/
def maxWrite : Nat := (MAXOPBLOCKS - 1 - 1 - 2) / 2 * BSIZE

/-- The loop of `filewrite`: how much has been written when it ends. -/
def filewriteLoop (f : Fin NFILE) (src : Source) (n : Nat) : Nat → Nat → FsM Nat
  | 0, i => if i < n then throw .endless else return i
  | fuel + 1, i =>
      if i < n then do
        let s ← get
        let n1 := min (n - i) maxWrite
        beginOp
        ilock sb (s.file f).ip
        let r ← writei sb (s.file f).ip (src.drop i) (s.file f).off n1
        setFile f fun x => if 0 < r then { x with off := (x.off + r.toNat) % 2 ^ 32 } else x
        iunlock (s.file f).ip
        endOp
        if r ≠ n1 then return i else filewriteLoop f src n fuel (i + n1)
      else return i

def filewrite (f : Fin NFILE) (src : Source) (n io : Int) : FsM Int := do
  let s ← get
  if (s.file f).writable = false then return -1
  else match (s.file f).type with
    | .pipe => return io
    | .device =>
        if (s.file f).major < 0 ∨ (NDEV : Int) ≤ (s.file f).major.toInt then return -1 else return io
    | .inode => do
        let i ← filewriteLoop sb f src n.toNat n.toNat 0
        return if (i : Int) = n then n else -1
    | .none => panic .filewrite

def setNlink (e : Fin NINODE) (f : Int16 → Int16) : FsM PUnit :=
  setInode e fun ip => { ip with din.nlink := f ip.din.nlink }

def incNlink (e : Fin NINODE) : FsM PUnit := do
  let ip ← getInode e
  note fun h => { h with linkMax := h.linkMax || decide (ip.din.nlink = 32767) }
  setNlink e (· + 1)

/-- Records an entry added to a directory. -/
def noteParent (dp : Fin NINODE) : FsM PUnit := do
  let ip ← getInode dp
  note fun h => { h with deadParent := h.deadParent || decide (ip.din.nlink < 1) }

/-- The tail of `create` and `sys_link` after a failure. -/
def createFail (e dp : Fin NINODE) : FsM (Option (Fin NINODE)) := do
  setNlink e fun _ => 0
  iupdate sb e
  iunlockput sb e
  iunlockput sb dp
  return none

def createDots (e : Fin NINODE) (inum parent : Nat) : FsM Bool := do
  if ← dirlink sb e [46] inum then dirlink sb e [46, 46] parent else return false

def createEntry (e dp : Fin NINODE) (name : List UInt8) (type : Int16) :
    FsM (Option (Fin NINODE)) := do
  let ip ← getInode e
  if ← dirlink sb dp name ip.inum then do
    noteParent dp
    if type = T_DIR then do
      incNlink dp
      iupdate sb dp
      iunlockput sb dp
      return some e
    else do
      iunlockput sb dp
      return some e
  else createFail sb e dp

/-- The rest of `create` once the new inode `e` is allocated. -/
def createInode (e dp : Fin NINODE) (name : List UInt8) (type major minor : Int16) :
    FsM (Option (Fin NINODE)) := do
  ilock sb e
  setInode e fun ip =>
    { ip with din.major := major, din.minor := minor, din.nlink := 1 }
  iupdate sb e
  if type = T_DIR then do
    let ip ← getInode e
    let dip ← getInode dp
    if ← createDots sb e ip.inum dip.inum then createEntry sb e dp name type
    else createFail sb e dp
  else createEntry sb e dp name type

def create (p : Fin NPROC) (path : List UInt8) (type major minor : Int16) :
    FsM (Option (Fin NINODE)) := do
  match ← nameiparent sb p path with
  | none => return none
  | some (dp, name) => do
      ilock sb dp
      match ← dirlookup sb dp name with
      | some (e, _) => do
          iunlockput sb dp
          ilock sb e
          let ip ← getInode e
          if type = T_FILE ∧ (ip.din.type = T_FILE ∨ ip.din.type = T_DEVICE) then return some e
          else do
            iunlockput sb e
            return none
      | none => do
          let dip ← getInode dp
          match ← ialloc sb dip.dev type with
          | none => do
              iunlockput sb dp
              return none
          | some e => createInode sb e dp name type major minor

def linkBad (e : Fin NINODE) : FsM Int := do
  ilock sb e
  setNlink e (· - 1)
  iupdate sb e
  iunlockput sb e
  endOp
  return -1

def sysLink (p : Fin NPROC) (old new : List UInt8) : FsM Int := do
  match argstr old, argstr new with
  | some old, some new => do
      beginOp
      match ← namei sb p old with
      | none => do
          endOp
          return -1
      | some e => do
          ilock sb e
          let ip ← getInode e
          if ip.din.type = T_DIR then do
            iunlockput sb e
            endOp
            return -1
          else do
            incNlink e
            iupdate sb e
            iunlock e
            match ← nameiparent sb p new with
            | none => linkBad sb e
            | some (dp, name) => do
                ilock sb dp
                let dip ← getInode dp
                let ip ← getInode e
                if dip.dev ≠ ip.dev then do
                  iunlockput sb dp
                  linkBad sb e
                else if ← dirlink sb dp name ip.inum then do
                  noteParent dp
                  iunlockput sb dp
                  iput sb e
                  endOp
                  return 0
                else do
                  iunlockput sb dp
                  linkBad sb e
  | _, _ => return -1

def isdiremptyFrom (dp : Fin NINODE) : Nat → Nat → FsM Bool
  | 0, off => do
      let ip ← getInode dp
      if off < ip.din.size.toNat then throw .endless else return true
  | fuel + 1, off => do
      let ip ← getInode dp
      if off < ip.din.size.toNat then do
        let (r, bytes) ← readi sb dp (fun _ _ => true) off 16
        if r ≠ 16 then panic .isdiremptyReadi
        else if (direntOf bytes).inum ≠ 0 then return false
        else isdiremptyFrom dp fuel (off + 16)
      else return true

/-- Is the directory empty except for "." and ".."? -/
def isdirempty (dp : Fin NINODE) : FsM Bool := do
  let ip ← getInode dp
  isdiremptyFrom sb dp (ip.din.size.toNat / 16 + 1) 32

def unlinkBad (dp : Fin NINODE) : FsM Int := do
  iunlockput sb dp
  endOp
  return -1

/-- The part of `sys_unlink` that removes the entry at `off` for the inode `e`. -/
def unlinkEntry (dp e : Fin NINODE) (off : Nat) : FsM Int := do
  let r ← writei sb dp (direntSource .zero) off 16
  if r ≠ 16 then panic .unlinkWritei
  else do
    let ip ← getInode e
    if ip.din.type = T_DIR then do
      setNlink dp (· - 1)
      iupdate sb dp
      iunlockput sb dp
    else iunlockput sb dp
    setNlink e (· - 1)
    iupdate sb e
    iunlockput sb e
    endOp
    return 0

def sysUnlink (p : Fin NPROC) (path : List UInt8) : FsM Int := do
  match argstr path with
  | none => return -1
  | some path => do
      beginOp
      match ← nameiparent sb p path with
      | none => do
          endOp
          return -1
      | some (dp, name) => do
          ilock sb dp
          if strncmp DIRSIZ name [46] = 0 ∨ strncmp DIRSIZ name [46, 46] = 0 then unlinkBad sb dp
          else
            match ← dirlookup sb dp name with
            | none => unlinkBad sb dp
            | some (e, off) => do
                ilock sb e
                let ip ← getInode e
                if ip.din.nlink < 1 then panic .unlinkNlink
                else if ip.din.type = T_DIR then do
                  if ← isdirempty sb e then unlinkEntry sb dp e off
                  else do
                    iunlockput sb e
                    unlinkBad sb dp
                else unlinkEntry sb dp e off

/-- `sys_open` once the inode `e` is found or created and locked. -/
def openInode (p : Fin NPROC) (e : Fin NINODE) (omode : Nat) : FsM Int := do
  let ip ← getInode e
  if ip.din.type = T_DEVICE ∧ (ip.din.major < 0 ∨ (NDEV : Int) ≤ ip.din.major.toInt) then do
    iunlockput sb e
    endOp
    return -1
  else
    match ← filealloc with
    | none => do
        iunlockput sb e
        endOp
        return -1
    | some f =>
        match ← fdalloc p f with
        | none => do
            fileclose sb f
            iunlockput sb e
            endOp
            return -1
        | some fd => do
            setFile f fun x =>
              { x with
                type := if ip.din.type = T_DEVICE then .device else .inode
                major := if ip.din.type = T_DEVICE then ip.din.major else x.major
                off := if ip.din.type = T_DEVICE then x.off else 0
                ip := e
                readable := omode &&& O_WRONLY = 0
                writable := omode &&& O_WRONLY ≠ 0 ∨ omode &&& O_RDWR ≠ 0 }
            if omode &&& O_TRUNC ≠ 0 ∧ ip.din.type = T_FILE then do
              itrunc sb e
              iunlock e
              endOp
              return fd.val
            else do
              iunlock e
              endOp
              return fd.val

def sysOpen (p : Fin NPROC) (path : List UInt8) (omode : Nat) : FsM Int := do
  match argstr path with
  | none => return -1
  | some path => do
      beginOp
      if omode &&& O_CREATE ≠ 0 then
        match ← create sb p path T_FILE 0 0 with
        | none => do
            endOp
            return -1
        | some e => openInode sb p e omode
      else
        match ← namei sb p path with
        | none => do
            endOp
            return -1
        | some e => do
            ilock sb e
            let ip ← getInode e
            if ip.din.type = T_DIR ∧ omode ≠ O_RDONLY then do
              iunlockput sb e
              endOp
              return -1
            else openInode sb p e omode

/-- `sys_mkdir` and `sys_mknod` after `create`. -/
def created (r : Option (Fin NINODE)) : FsM Int :=
  match r with
  | none => do
      endOp
      return -1
  | some e => do
      iunlockput sb e
      endOp
      return 0

def sysMkdir (p : Fin NPROC) (path : List UInt8) : FsM Int := do
  beginOp
  match argstr path with
  | none => created sb none
  | some path => do
      let r ← create sb p path T_DIR 0 0
      created sb r

def sysMknod (p : Fin NPROC) (path : List UInt8) (major minor : Int) : FsM Int := do
  beginOp
  match argstr path with
  | none => created sb none
  | some path => do
      let r ← create sb p path T_DEVICE (Int16.ofInt major) (Int16.ofInt minor)
      created sb r

def sysChdir (p : Fin NPROC) (path : List UInt8) : FsM Int := do
  beginOp
  match argstr path with
  | none => do
      endOp
      return -1
  | some path =>
      match ← namei sb p path with
      | none => do
          endOp
          return -1
      | some e => do
          ilock sb e
          let ip ← getInode e
          if ip.din.type ≠ T_DIR then do
            iunlockput sb e
            endOp
            return -1
          else do
            iunlock e
            let s ← get
            iput sb (s.proc p).cwd
            endOp
            setProc p fun pr => { pr with cwd := e }
            return 0

def sysClose (p : Fin NPROC) (fd : Int) : FsM Int := do
  match ← argfd p fd with
  | none => return -1
  | some (fd, f) => do
      clearFd p fd
      fileclose sb f
      return 0

def sysDup (p : Fin NPROC) (fd : Int) : FsM Int := do
  match ← argfd p fd with
  | none => return -1
  | some (_, f) =>
      match ← fdalloc p f with
      | none => return -1
      | some fd => do
          filedup f
          return fd.val

def sysRead (p : Fin NPROC) (fd : Int) (ok : Nat → Nat → Bool) (n io : Int) : FsM Int := do
  match ← argfd p fd with
  | none => return -1
  | some (_, f) => fileread sb f ok n io

def sysWrite (p : Fin NPROC) (fd : Int) (src : Source) (n io : Int) : FsM Int := do
  match ← argfd p fd with
  | none => return -1
  | some (_, f) => filewrite sb f src n io

/-- `ok` says whether the copy to user memory succeeds. -/
def sysFstat (p : Fin NPROC) (fd : Int) (ok : Bool) : FsM Int := do
  match ← argfd p fd with
  | none => return -1
  | some (_, f) => do
      let s ← get
      if (s.file f).type = .inode ∨ (s.file f).type = .device then do
        ilock sb (s.file f).ip
        iunlock (s.file f).ip
        return if ok then 0 else -1
      else return -1

/-- The file system's part of `fork` into the free slot `q`. -/
def forkFiles (p q : Fin NPROC) : List (Fin NOFILE) → FsM PUnit
  | [] => return
  | fd :: fds => do
      let s ← get
      match (s.proc p).ofile fd with
      | none => forkFiles p q fds
      | some f => do
          filedup f
          setProc q fun pr => { pr with ofile := update pr.ofile fd (some f) }
          forkFiles p q fds

/-- `mem` says whether `allocproc` and `uvmcopy` get the memory they need. -/
def fork (p q : Fin NPROC) (mem : Bool) : FsM Int := do
  let s ← get
  if (s.proc q).used ∨ mem = false then return -1
  else do
    forkFiles p q (List.finRange NOFILE)
    idup (s.proc p).cwd
    setProc q fun pr => { pr with used := true, cwd := (s.proc p).cwd }
    return q.val

def exitFiles (p : Fin NPROC) : List (Fin NOFILE) → FsM PUnit
  | [] => return
  | fd :: fds => do
      let s ← get
      match (s.proc p).ofile fd with
      | none => exitFiles p fds
      | some f => do
          fileclose sb f
          clearFd p fd
          exitFiles p fds

/-- Process 0 is `initproc`. -/
def exit (p : Fin NPROC) : FsM Int := do
  if p.val = 0 then panic .initExiting
  else do
    exitFiles sb p (List.finRange NOFILE)
    let s ← get
    beginOp
    iput sb (s.proc p).cwd
    endOp
    setProc p fun pr => { pr with used := false }
    return 0

def readAll (e : Fin NINODE) : List (Nat × Nat) → FsM PUnit
  | [] => return
  | (off, n) :: rs => do
      let _ ← readi sb e (fun _ _ => true) off n
      readAll e rs

/-- The file system's part of `exec`: the program file is read at the places `reads`, and the rest
of `exec` returns `r`. `argv` says whether the arguments can be fetched. -/
def sysExec (p : Fin NPROC) (path : List UInt8) (argv : Bool) (reads : List (Nat × Nat)) (r : Int) :
    FsM Int := do
  match argstr path with
  | none => return -1
  | some path =>
      if argv then do
        beginOp
        match ← namei sb p path with
        | none => do
            endOp
            return -1
        | some e => do
            ilock sb e
            readAll sb e reads
            iunlockput sb e
            endOp
            return r
      else return -1

def newPipe : FsM Nat := do
  let s ← get
  set { s with pipe := update s.pipe s.npipe ⟨true, true, 0⟩, npipe := s.npipe + 1 }
  return s.npipe

/-- `mem` says whether `kalloc` succeeds. -/
def pipealloc (mem : Bool) : FsM (Option (Fin NFILE × Fin NFILE)) := do
  match ← filealloc with
  | none => return none
  | some f0 =>
      match ← filealloc with
      | none => do
          fileclose sb f0
          return none
      | some f1 =>
          if mem then do
            let pi ← newPipe
            setFile f0 fun x =>
              { x with type := .pipe, readable := true, writable := false, pipe := pi }
            setFile f1 fun x =>
              { x with type := .pipe, readable := false, writable := true, pipe := pi }
            return some (f0, f1)
          else do
            fileclose sb f0
            fileclose sb f1
            return none

/-- `ok` says whether both descriptors can be copied to user memory. -/
def sysPipe (p : Fin NPROC) (mem ok : Bool) : FsM Int := do
  match ← pipealloc sb mem with
  | none => return -1
  | some (rf, wf) =>
      match ← fdalloc p rf with
      | none => do
          fileclose sb rf
          fileclose sb wf
          return -1
      | some fd0 =>
          match ← fdalloc p wf with
          | none => do
              clearFd p fd0
              fileclose sb rf
              fileclose sb wf
              return -1
          | some fd1 =>
              if ok then return 0
              else do
                clearFd p fd0
                clearFd p fd1
                fileclose sb rf
                fileclose sb wf
                return -1

/-- The system calls that involve the file system, with what the user memory and the devices
contribute. -/
inductive Call
  | open (path : List UInt8) (omode : Nat)
  | close (fd : Int)
  | dup (fd : Int)
  | read (fd : Int) (ok : Nat → Nat → Bool) (n io : Int)
  | write (fd : Int) (src : Source) (n io : Int)
  | fstat (fd : Int) (ok : Bool)
  | link (old new : List UInt8)
  | unlink (path : List UInt8)
  | mkdir (path : List UInt8)
  | mknod (path : List UInt8) (major minor : Int)
  | chdir (path : List UInt8)
  | exec (path : List UInt8) (argv : Bool) (reads : List (Nat × Nat)) (r : Int)
  | pipe (mem ok : Bool)
  | fork (q : Fin NPROC) (mem : Bool)
  | exit

def syscall (p : Fin NPROC) : Call → FsM Int
  | .open path omode => sysOpen sb p path omode
  | .close fd => sysClose sb p fd
  | .dup fd => sysDup p fd
  | .read fd ok n io => sysRead sb p fd ok n io
  | .write fd src n io => sysWrite sb p fd src n io
  | .fstat fd ok => sysFstat sb p fd ok
  | .link old new => sysLink sb p old new
  | .unlink path => sysUnlink sb p path
  | .mkdir path => sysMkdir sb p path
  | .mknod path major minor => sysMknod sb p path major minor
  | .chdir path => sysChdir sb p path
  | .exec path argv reads r => sysExec sb p path argv reads r
  | .pipe mem ok => sysPipe sb p mem ok
  | .fork q mem => fork p q mem
  | .exit => exit sb p

/-- One system call of one running process. -/
def call (s : State) (l : Fin NPROC × Call) : Option (Except Stop State) :=
  if (s.proc l.1).used then some ((syscall sb l.1 l.2 s).map (·.2)) else none

def Step (s : State) (l : Fin NPROC × Call) (t : State) : Prop := call sb s l = some (.ok t)

/-- The kernel right after boot on a disk: an empty inode table except for the first process's
`cwd`, which is the root directory. -/
def boot (d : Disk) : State where
  disk := d
  inode := fun e =>
    if e.val = 0 then ⟨ROOTDEV, ROOTINO, 1, false, false, .zero⟩ else ⟨0, 0, 0, false, false, .zero⟩
  file := fun _ => ⟨.none, 0, false, false, 0, ⟨0, by decide⟩, 0, 0⟩
  pipe := fun _ => ⟨false, false, 0⟩
  npipe := 0
  proc := fun p => ⟨decide (p.val = 0), ⟨0, by decide⟩, fun _ => none⟩
  outstanding := 0
  lh := []
  hist := ⟨0, 0, [], false, false, [d], false⟩

end Xv6.Fs
