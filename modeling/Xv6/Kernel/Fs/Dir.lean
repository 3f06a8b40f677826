import Xv6.Kernel.Fs.Inode

namespace Xv6.Fs

open ByteCodec Hoare

/-- C's `strncmp` on strings whose end stands for the terminating 0. -/
def strncmp : Nat → List UInt8 → List UInt8 → Int
  | 0, _, _ => 0
  | n + 1, p, q =>
      if p.headD 0 ≠ 0 ∧ p.headD 0 = q.headD 0 then strncmp n p.tail q.tail
      else (p.headD 0).toNat - (q.headD 0).toNat

def namecmp (s : List UInt8) (t : Fin DIRSIZ → UInt8) : Int := strncmp DIRSIZ s (List.ofFn t)

/-- C's `strncpy` into a directory entry: cut off at the first 0 and padded with 0. -/
def strncpy (name : List UInt8) : Fin DIRSIZ → UInt8 :=
  fun j => (name.takeWhile (· ≠ 0)).getD j 0

def direntOf (bytes : List UInt8) : Dirent := dirent.dec fun j => bytes.getD j 0

/-- A directory entry as a source for `writei`. -/
def direntSource (de : Dirent) : Source :=
  .kernel fun j => if h : j < 16 then dirent.enc de ⟨j, h⟩ else 0

variable (sb : Superblock)

def dirlookupFrom (dp : Fin NINODE) (name : List UInt8) :
    Nat → Nat → FsM (Option (Fin NINODE × Nat))
  | 0, off => do
      let ip ← getInode dp
      if off < ip.din.size.toNat then throw .endless else return none
  | fuel + 1, off => do
      let ip ← getInode dp
      if off < ip.din.size.toNat then do
        let (r, bytes) ← readi sb dp (fun _ _ => true) off 16
        if r ≠ 16 then panic .dirlookupRead
        else if (direntOf bytes).inum = 0 then dirlookupFrom dp name fuel (off + 16)
        else if namecmp name (direntOf bytes).name = 0 then do
          let e ← iget ip.dev (direntOf bytes).inum.toNat
          return some (e, off)
        else dirlookupFrom dp name fuel (off + 16)
      else return none

/-- Look for a directory entry in a directory: its inode and its offset. -/
def dirlookup (dp : Fin NINODE) (name : List UInt8) : FsM (Option (Fin NINODE × Nat)) := do
  let ip ← getInode dp
  if ip.din.type ≠ T_DIR then panic .dirlookupNotDir
  else dirlookupFrom sb dp name (ip.din.size.toNat / 16 + 1) 0

def emptyFrom (dp : Fin NINODE) : Nat → Nat → FsM Nat
  | 0, off => do
      let ip ← getInode dp
      if off < ip.din.size.toNat then throw .endless else return off
  | fuel + 1, off => do
      let ip ← getInode dp
      if off < ip.din.size.toNat then do
        let (r, bytes) ← readi sb dp (fun _ _ => true) off 16
        if r ≠ 16 then panic .dirlinkRead
        else if (direntOf bytes).inum = 0 then return off
        else emptyFrom dp fuel (off + 16)
      else return off

/-- Write a new directory entry; `false` is `dirlink`'s -1. -/
def dirlink (dp : Fin NINODE) (name : List UInt8) (inum : Nat) : FsM Bool := do
  match ← dirlookup sb dp name with
  | some (e, _) => do
      iput sb e
      return false
  | none => do
      let ip ← getInode dp
      let off ← emptyFrom sb dp (ip.din.size.toNat / 16 + 1) 0
      let r ← writei sb dp (direntSource ⟨UInt16.ofNat inum, strncpy name⟩) off 16
      return decide (r = 16)

def slash : UInt8 := 47

/-- The next path element, cut to `DIRSIZ` bytes, and the rest of the path without leading
slashes. -/
def skipelem (path : List UInt8) : Option (List UInt8 × List UInt8) :=
  match path.dropWhile (· = slash) with
  | [] => none
  | c :: cs =>
      some (((c :: cs).takeWhile (· ≠ slash)).take DIRSIZ,
        ((c :: cs).dropWhile (· ≠ slash)).dropWhile (· = slash))

/-- The loop of `namex`: the inode and the last path element. -/
def namexFrom (parent : Bool) :
    Nat → Fin NINODE → List UInt8 → List UInt8 → FsM (Option (Fin NINODE × List UInt8))
  | 0, _, _, _ => throw .endless
  | fuel + 1, e, path, last =>
      match skipelem path with
      | none =>
          if parent then do
            iput sb e
            return none
          else return some (e, last)
      | some (name, rest) => do
          ilock sb e
          let ip ← getInode e
          if ip.din.type ≠ T_DIR then do
            iunlockput sb e
            return none
          else if parent ∧ rest = [] then do
            iunlock e
            return some (e, name)
          else
            match ← dirlookup sb e name with
            | none => do
                iunlockput sb e
                return none
            | some (next, _) => do
                iunlockput sb e
                namexFrom parent fuel next rest name

/-- Look up and return the inode for a path name, or for its parent together with the final path
element. -/
def namex (p : Fin NPROC) (path : List UInt8) (parent : Bool) :
    FsM (Option (Fin NINODE × List UInt8)) := do
  let s ← get
  if path.head? = some slash then do
    let e ← iget ROOTDEV ROOTINO
    namexFrom sb parent (path.length + 1) e path []
  else do
    idup (s.proc p).cwd
    namexFrom sb parent (path.length + 1) (s.proc p).cwd path []

def namei (p : Fin NPROC) (path : List UInt8) : FsM (Option (Fin NINODE)) := do
  let r ← namex sb p path false
  return r.map (·.1)

def nameiparent (p : Fin NPROC) (path : List UInt8) : FsM (Option (Fin NINODE × List UInt8)) :=
  namex sb p path true

end Xv6.Fs
