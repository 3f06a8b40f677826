import Xv6.Kernel.Fs.Dir

namespace Xv6.Mkfs

open ByteCodec Hoare Fs Function

def NINODES : Nat := 200
def FSMAGIC : Nat := 0x10203040

def nbitmap : Nat := FSSIZE / BPB + 1
def ninodeblocks : Nat := NINODES / IPB + 1
def nlog : Nat := LOGSIZE
def nmeta : Nat := 2 + nlog + ninodeblocks + nbitmap
def nblocks : Nat := FSSIZE - nmeta

def sb : Superblock where
  size := FSSIZE
  ninodes := NINODES
  nlog := nlog
  logstart := 2
  inodestart := 2 + nlog
  bmapstart := 2 + nlog + ninodeblocks
  size_lt := by decide
  root_lt := by decide
  log_le := by decide
  inode_le := by decide
  bmap_le := by decide

/-- `struct superblock` on the disk. -/
def sbWords : Fin 8 → UInt32 :=
  ![UInt32.ofNat FSMAGIC, UInt32.ofNat FSSIZE, UInt32.ofNat nblocks, UInt32.ofNat NINODES,
    UInt32.ofNat nlog, 2, UInt32.ofNat (2 + nlog), UInt32.ofNat (2 + nlog + ninodeblocks)]

/-- How `mkfs` fails: a failed assertion, `die`, or a loop of the model that is cut off. -/
inductive Failure
  | assertRootino
  | assertIndex
  | assertStrlen
  | assertFbn
  | assertUsed
  | dieOpen
  | dieRead
  | endless
  deriving DecidableEq, Repr

/-- The image file, its length in blocks, and the two counters. -/
structure State where
  disk : Disk
  nsect : Nat
  freeinode : Nat
  freeblock : Nat

abbrev MkfsM (α : Type) : Type := Prog State Failure α

/-- A file on the command line: its path, and what the calls of `read` return until the end, or
nothing if it cannot be opened. -/
structure Input where
  argv : List UInt8
  contents : Option (List (List UInt8))
  deriving DecidableEq

def zeroes : Block := fun _ => 0

def wsect (sec : Nat) (buf : Block) : MkfsM PUnit :=
  modify fun s => { s with disk := update s.disk sec buf, nsect := max s.nsect (sec + 1) }

def rsect (sec : Nat) : MkfsM Block := do
  let s ← get
  if sec < s.nsect then return s.disk sec else throw .dieRead

def winode (inum : Nat) (ip : Dinode) : MkfsM PUnit := do
  let buf ← rsect (sb.iblock inum)
  wsect (sb.iblock inum) (dinode.put buf (inum % IPB) ip)

def rinode (inum : Nat) : MkfsM Dinode := do
  let buf ← rsect (sb.iblock inum)
  return dinode.get buf (inum % IPB)

def ialloc (type : Int16) : MkfsM Nat := do
  let s ← get
  set { s with freeinode := s.freeinode + 1 }
  winode s.freeinode ⟨type, 0, 0, 1, 0, fun _ => 0⟩
  return s.freeinode

/-- `freeblock++`. -/
def takeBlock : MkfsM UInt32 := do
  let s ← get
  set { s with freeblock := s.freeblock + 1 }
  return UInt32.ofNat s.freeblock

/-- The bitmap with the first `used` blocks marked. -/
def bitmap : Nat → Block
  | 0 => zeroes
  | used + 1 => setBit (bitmap used) used

theorem testBit_bitmap {used b : Nat} (hu : used ≤ BPB) (hb : b < BPB) :
    testBit (bitmap used) b = decide (b < used) := by
  induction used with
  | zero =>
    simp only [testBit, bitmap, zeroes, UInt8.zero_and]
    simp
  | succ used ih =>
    rw [bitmap, testBit_setBit _ (by omega) hb, ih (by omega)]
    by_cases h : b = used
    · simp [h]
    · have : b < used ↔ b < used + 1 := by omega
      simp [h, this]

def balloc (used : Nat) : MkfsM PUnit :=
  if used < BPB then wsect sb.bmapstart (bitmap used) else throw .assertUsed

/-- The part of `iappend` that makes sure there is an indirect block. -/
def indirectBlock (din : Dinode) : MkfsM Dinode :=
  if din.addrs (Fin.last NDIRECT) = 0 then do
    let x ← takeBlock
    return { din with addrs := update din.addrs (Fin.last NDIRECT) x }
  else return din

/-- The part of `iappend` that finds the block `fbn` of the file, allocating it if need be. -/
def fileBlock (din : Dinode) (fbn : Nat) : MkfsM (Dinode × UInt32) :=
  if h : fbn < NDIRECT then
    if din.addrs ⟨fbn, Nat.lt_succ_of_lt h⟩ = 0 then do
      let x ← takeBlock
      return ({ din with addrs := update din.addrs ⟨fbn, Nat.lt_succ_of_lt h⟩ x }, x)
    else return (din, din.addrs ⟨fbn, Nat.lt_succ_of_lt h⟩)
  else do
    let din ← indirectBlock din
    let indirect ← rsect (din.addrs (Fin.last NDIRECT)).toNat
    if u32.get indirect (fbn - NDIRECT) = 0 then do
      let x ← takeBlock
      wsect (din.addrs (Fin.last NDIRECT)).toNat (u32.put indirect (fbn - NDIRECT) x)
      return (din, x)
    else return (din, u32.get indirect (fbn - NDIRECT))

/-- The loop of `iappend`: the inode and the offset when all of `p` is written. -/
def iappendLoop : Nat → Dinode → Nat → List UInt8 → MkfsM (Dinode × Nat)
  | 0, din, off, p => if 0 < p.length then throw .endless else return (din, off)
  | fuel + 1, din, off, p =>
      if 0 < p.length then do
        let fbn := off / BSIZE
        if fbn < MAXFILE then do
          let (din, x) ← fileBlock din fbn
          let n1 := min p.length ((fbn + 1) * BSIZE - off)
          let buf ← rsect x.toNat
          wsect x.toNat (storeBytes buf (off - fbn * BSIZE) n1 fun j => p.getD j 0)
          iappendLoop fuel din (off + n1) (p.drop n1)
        else throw .assertFbn
      else return (din, off)

def iappend (inum : Nat) (p : List UInt8) : MkfsM PUnit := do
  let din ← rinode inum
  let (din, off) ← iappendLoop p.length din din.size.toNat p
  winode inum { din with size := UInt32.ofNat off }

def direntBytes (inum : Nat) (name : List UInt8) : List UInt8 :=
  List.ofFn (dirent.enc ⟨UInt16.ofNat inum, strncpy name⟩)

/-- The path without "user/". -/
def shortname (argv : List UInt8) : List UInt8 :=
  if strncmp 5 argv [117, 115, 101, 114, 47] = 0 then argv.drop 5 else argv

/-- The name in the file system: without a leading '_'. -/
def filename (argv : List UInt8) : List UInt8 :=
  if (shortname argv).headD 0 = 95 then (shortname argv).drop 1 else shortname argv

def appendAll (inum : Nat) : List (List UInt8) → MkfsM PUnit
  | [] => return
  | buf :: bufs => do
      iappend inum buf
      appendAll inum bufs

/-- One round of the loop over the files. -/
def addFile (rootino : Nat) (file : Input) : MkfsM PUnit := do
  if slash ∈ shortname file.argv then throw .assertIndex
  else
    match file.contents with
    | none => throw .dieOpen
    | some bufs =>
        if (filename file.argv).length ≤ DIRSIZ then do
          let inum ← ialloc T_FILE
          iappend rootino (direntBytes inum (filename file.argv))
          appendAll inum bufs
        else throw .assertStrlen

def addFiles (rootino : Nat) : List Input → MkfsM PUnit
  | [] => return
  | file :: files => do
      addFile rootino file
      addFiles rootino files

def zeroSectors : Nat → Nat → MkfsM PUnit
  | 0, _ => return
  | n + 1, i => do
      wsect i zeroes
      zeroSectors n (i + 1)

/-- The size of the root directory is rounded up. -/
def fixRoot (rootino : Nat) : MkfsM PUnit := do
  let din ← rinode rootino
  let off := (din.size.toNat / BSIZE + 1) * BSIZE
  winode rootino { din with size := UInt32.ofNat off }

/-- `mkfs` from the first write to the image on. -/
def main (files : List Input) : MkfsM PUnit := do
  zeroSectors FSSIZE 0
  wsect 1 ((u32.array 8).put zeroes 0 sbWords)
  let rootino ← ialloc T_DIR
  if rootino = ROOTINO then do
    iappend rootino (direntBytes rootino [46])
    iappend rootino (direntBytes rootino [46, 46])
    addFiles rootino files
    fixRoot rootino
    let s ← get
    balloc s.freeblock
  else throw .assertRootino

def mkfs (files : List Input) : Except Failure Disk :=
  (main files ⟨fun _ => zeroes, 0, 1, nmeta⟩).map fun r => r.2.disk

end Xv6.Mkfs
