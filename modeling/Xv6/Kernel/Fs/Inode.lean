import Xv6.Kernel.Fs.State

namespace Xv6.Fs

open ByteCodec Hoare

variable (sb : Superblock)

def bzero (b : Nat) : FsM PUnit := logWrite sb b fun _ => 0

/-- The inner loop of `balloc`: the first clear bit among `n` bits from `bi` on. -/
def scanBits (data : Block) : Nat → Nat → Option Nat
  | 0, _ => none
  | n + 1, bi => if testBit data bi then scanBits data n (bi + 1) else some bi

/-- The outer loop of `balloc`, from block `b` of the free map's range on. -/
def ballocFrom : Nat → Nat → FsM UInt32
  | 0, _ => return 0
  | n + 1, b =>
      if b < sb.size then do
        let data ← bread (sb.bblock b)
        match scanBits data (min BPB (sb.size - b)) 0 with
        | some bi => do
            logWrite sb (sb.bblock b) (setBit data bi)
            bzero sb (b + bi)
            note fun h => { h with allocs := h.allocs + 1 }
            return UInt32.ofNat (b + bi)
        | none => ballocFrom n (b + BPB)
      else return 0

/-- Allocate a zeroed disk block; 0 if out of disk space. -/
def balloc : FsM UInt32 := ballocFrom sb (sb.size / BPB + 1) 0

def bfree (b : Nat) : FsM PUnit := do
  let data ← bread (sb.bblock b)
  if testBit data (b % BPB) then logWrite sb (sb.bblock b) (clearBit data (b % BPB))
  else panic .freeingFreeBlock

/-- Find the inode in the table, or take an empty slot for it. -/
def iget (dev inum : Nat) : FsM (Fin NINODE) := do
  let s ← get
  match (List.finRange NINODE).find? fun e =>
      0 < (s.inode e).ref ∧ (s.inode e).dev = dev ∧ (s.inode e).inum = inum with
  | some e => do
      setInode e fun ip => { ip with ref := ip.ref + 1 }
      return e
  | none =>
      match (List.finRange NINODE).find? fun e => (s.inode e).ref = 0 with
      | some e => do
          setInode e fun ip => { ip with dev := dev, inum := inum, ref := 1, valid := false }
          return e
      | none => panic .igetNoInodes

def idup (e : Fin NINODE) : FsM PUnit := setInode e fun ip => { ip with ref := ip.ref + 1 }

/-- The loop of `ialloc` over `n` inodes from `inum` on. -/
def iallocFrom (dev : Nat) (type : Int16) : Nat → Nat → FsM (Option (Fin NINODE))
  | 0, _ => return none
  | n + 1, inum => do
      let data ← bread (sb.iblock inum)
      if (dinode.get data (inum % IPB)).type = 0 then do
        logWrite sb (sb.iblock inum)
          (dinode.put data (inum % IPB) { Dinode.zero with type := type })
        let e ← iget dev inum
        return some e
      else iallocFrom dev type n (inum + 1)

def ialloc (dev : Nat) (type : Int16) : FsM (Option (Fin NINODE)) :=
  iallocFrom sb dev type (sb.ninodes - 1) 1

/-- Copy a modified in-memory inode to disk. -/
def iupdate (e : Fin NINODE) : FsM PUnit := do
  let ip ← getInode e
  let data ← bread (sb.iblock ip.inum)
  logWrite sb (sb.iblock ip.inum) (dinode.put data (ip.inum % IPB) ip.din)

def ilock (e : Fin NINODE) : FsM PUnit := do
  let ip ← getInode e
  if ip.ref < 1 then panic .ilock
  else if ip.locked then throw .deadlock
  else if ip.valid then setInode e fun ip => { ip with locked := true }
  else do
    let data ← bread (sb.iblock ip.inum)
    let din := dinode.get data (ip.inum % IPB)
    setInode e fun ip => { ip with locked := true, valid := true, din := din }
    if din.type = 0 then panic .ilockNoType else return

def iunlock (e : Fin NINODE) : FsM PUnit := do
  let ip ← getInode e
  if ip.locked = false ∨ ip.ref < 1 then panic .iunlock
  else setInode e fun ip => { ip with locked := false }

def setAddr (e : Fin NINODE) (k : Fin (NDIRECT + 1)) (a : UInt32) : FsM PUnit :=
  setInode e fun ip => { ip with din.addrs := Function.update ip.din.addrs k a }

/-- The block address in slot `k` of the inode itself, allocating if necessary. -/
def bmapSlot (e : Fin NINODE) (k : Fin (NDIRECT + 1)) : FsM UInt32 := do
  let ip ← getInode e
  if ip.din.addrs k = 0 then do
    let addr ← balloc sb
    if addr = 0 then return 0
    else do
      setAddr e k addr
      return addr
  else return ip.din.addrs k

/-- The disk block address of the `bn`th block of the inode, allocating if necessary; 0 if out of
disk space. -/
def bmap (e : Fin NINODE) (bn : Nat) : FsM UInt32 :=
  if h : bn < NDIRECT then bmapSlot sb e ⟨bn, Nat.lt_succ_of_lt h⟩
  else if bn - NDIRECT < NINDIRECT then do
    let ind ← bmapSlot sb e (Fin.last NDIRECT)
    if ind = 0 then return 0
    else do
      let a ← bread ind.toNat
      if u32.get a (bn - NDIRECT) = 0 then do
        let addr ← balloc sb
        if addr = 0 then return 0
        else do
          logWrite sb ind.toNat (u32.put a (bn - NDIRECT) addr)
          return addr
      else return u32.get a (bn - NDIRECT)
  else panic .bmapOutOfRange

def itruncDirect (e : Fin NINODE) : List (Fin (NDIRECT + 1)) → FsM PUnit
  | [] => return
  | k :: ks => do
      let ip ← getInode e
      if ip.din.addrs k = 0 then itruncDirect e ks
      else do
        bfree sb (ip.din.addrs k).toNat
        setAddr e k 0
        itruncDirect e ks

/-- The second loop of `itrunc`, over the entries of the indirect block `a`. -/
def itruncEntries (a : Block) : List Nat → FsM PUnit
  | [] => return
  | j :: js =>
      if u32.get a j = 0 then itruncEntries a js
      else do
        bfree sb (u32.get a j).toNat
        itruncEntries a js

def directSlots : List (Fin (NDIRECT + 1)) := (List.finRange NDIRECT).map Fin.castSucc

def itruncIndirect (e : Fin NINODE) : FsM PUnit := do
  let ip ← getInode e
  if ip.din.addrs (Fin.last NDIRECT) = 0 then return
  else do
    let a ← bread (ip.din.addrs (Fin.last NDIRECT)).toNat
    itruncEntries sb a (List.range NINDIRECT)
    bfree sb (ip.din.addrs (Fin.last NDIRECT)).toNat
    setAddr e (Fin.last NDIRECT) 0

/-- Truncate inode (discard contents). -/
def itrunc (e : Fin NINODE) : FsM PUnit := do
  itruncDirect sb e directSlots
  itruncIndirect sb e
  setInode e fun ip => { ip with din.size := 0 }
  iupdate sb e

/-- The block address of index `bn` as it stands on the disk, 0 if there is none. -/
def blockAt (d : Disk) (ip : Dinode) (bn : Nat) : UInt32 :=
  if h : bn < NDIRECT then ip.addrs ⟨bn, Nat.lt_succ_of_lt h⟩
  else if ip.addrs (Fin.last NDIRECT) = 0 then 0
  else u32.get (d (ip.addrs (Fin.last NDIRECT)).toNat) (bn - NDIRECT)

def entryAt (d : Disk) (ip : Dinode) (k : Nat) : Dirent :=
  dirent.get (d (blockAt d ip (k / 64)).toNat) (k % 64)

def entriesAt (d : Disk) (ip : Dinode) : List Dirent :=
  (List.range (ip.size.toNat / 16)).map (entryAt d ip)

/-- The part of `iput` that frees an inode without links. -/
def ifree (e : Fin NINODE) : FsM PUnit := do
  let s ← get
  if (s.inode e).locked then throw .deadlock
  else do
    note fun h =>
      if (s.inode e).din.type = T_DIR then
        { h with freedDirs := h.freedDirs ++ [entriesAt s.disk (s.inode e).din] }
      else h
    itrunc sb e
    setInode e fun ip => { ip with din.type := 0 }
    iupdate sb e
    setInode e fun ip => { ip with valid := false }

/-- Drop a reference to an in-memory inode. -/
def iput (e : Fin NINODE) : FsM PUnit := do
  let s ← get
  noteUnless (0 < s.outstanding)
  let ip ← getInode e
  if ip.ref = 1 ∧ ip.valid ∧ ip.din.nlink = 0 then do
    ifree sb e
    setInode e fun ip => { ip with ref := ip.ref - 1 }
  else setInode e fun ip => { ip with ref := ip.ref - 1 }

def iunlockput (e : Fin NINODE) : FsM PUnit := do
  iunlock e
  iput sb e

/-- `bytes` of a block, from `off` on. -/
def bytesFrom (data : Block) (off m : Nat) : List UInt8 :=
  (List.range m).map fun j => data (Fin.ofNat BSIZE (off + j))

/-- The loop of `readi`; `ok` says which copies to the destination succeed. -/
def readiLoop (e : Fin NINODE) (ok : Nat → Nat → Bool) (n : Nat) :
    Nat → Nat → Nat → List UInt8 → FsM (Int × List UInt8)
  | 0, _, tot, acc => if tot < n then throw .endless else return (tot, acc)
  | fuel + 1, off, tot, acc =>
      if tot < n then do
        let before ← get
        let addr ← bmap sb e (off / BSIZE)
        note fun h => { h with readAllocs := h.readAllocs + (h.allocs - before.hist.allocs) }
        if addr = 0 then return (tot, acc)
        else do
          let data ← bread addr.toNat
          let m := min (n - tot) (BSIZE - off % BSIZE)
          if ok tot m then
            readiLoop e ok n fuel (off + m) (tot + m) (acc ++ bytesFrom data (off % BSIZE) m)
          else return (-1, acc)
      else return (tot, acc)

/-- Read data from inode: the return value, and the bytes copied. `off` and `n` are `uint`s. -/
def readi (e : Fin NINODE) (ok : Nat → Nat → Bool) (off n : Nat) : FsM (Int × List UInt8) := do
  let ip ← getInode e
  if ip.din.size.toNat < off ∨ (off + n) % 2 ^ 32 < off then return (0, [])
  else
    let n := if ip.din.size.toNat < off + n then ip.din.size.toNat - off else n
    readiLoop sb e ok n n off 0 []

def storeBytes (data : Block) (off m : Nat) (f : Nat → UInt8) : Block :=
  fun j => if off ≤ j.val ∧ j.val < off + m then f (j.val - off) else data j

/-- The loop of `writei`: how much has been written and where the offset stands. When a copy from
user memory fails, what was copied before stays in the buffer and is not logged. -/
def writeiLoop (e : Fin NINODE) (src : Source) (n : Nat) : Nat → Nat → Nat → FsM (Nat × Nat)
  | 0, off, tot => if tot < n then throw .endless else return (tot, off)
  | fuel + 1, off, tot =>
      if tot < n then do
        let addr ← bmap sb e (off / BSIZE)
        if addr = 0 then return (tot, off)
        else do
          let data ← bread addr.toNat
          let m := min (n - tot) (BSIZE - off % BSIZE)
          let got := min m (src.good tot m)
          let data := storeBytes data (off % BSIZE) got fun j => src.byte (tot + j)
          if got < m then do
            modify fun s => { s with disk := Function.update s.disk addr.toNat data }
            return (tot, off)
          else do
            logWrite sb addr.toNat data
            writeiLoop e src n fuel (off + m) (tot + m)
      else return (tot, off)

/-- Write data to inode; `off` and `n` are `uint`s. -/
def writei (e : Fin NINODE) (src : Source) (off n : Nat) : FsM Int := do
  let ip ← getInode e
  if ip.din.size.toNat < off ∨ (off + n) % 2 ^ 32 < off then return -1
  else if MAXFILE * BSIZE < off + n then return -1
  else do
    let (tot, off) ← writeiLoop sb e src n n off 0
    setInode e fun ip =>
      if ip.din.size.toNat < off then { ip with din.size := UInt32.ofNat off } else ip
    iupdate sb e
    return tot

end Xv6.Fs
