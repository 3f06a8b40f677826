import Xv6.Framework.ByteCodec
import Xv6.Framework.WriteTrace
import Xv6.Kernel.Param

namespace Xv6.Log

open ByteCodec WriteTrace List

/-- Where the log lies on the disk: `log.start` and `log.size`, header block included. -/
structure LogArea where
  start : Nat
  size : Nat
  size_pos : 0 < size

def LogArea.Home (L : LogArea) (b : Nat) : Prop := b < L.start ∨ L.start + L.size ≤ b

def LogArea.SameHome (L : LogArea) (d e : Disk) : Prop := ∀ b, L.Home b → d b = e b

/-- The log header in a block: `int n` followed by `int block[]`; a negative `n` is an empty log. -/
def readHead (blk : Block) : List UInt32 :=
  (List.range (u32.get blk 0).toInt32.toInt.toNat).map fun i => u32.get blk (i + 1)

def putEntries (blk : Block) : List UInt32 → Nat → Block
  | [], _ => blk
  | b :: bs, i => putEntries (u32.put blk (i + 1) b) bs (i + 1)

/-- `write_head` stores `n` and the first `n` entries and leaves the rest of the block alone. -/
def putHead (lh : List UInt32) (blk : Block) : Block :=
  putEntries (u32.put blk 0 (UInt32.ofNat lh.length)) lh 0

def writeLog (L : LogArea) (cache : Disk) : List UInt32 → Nat → Device Nat Block → Device Nat Block
  | [], _, d => d
  | b :: bs, tail, d => writeLog L cache bs (tail + 1) (d.write (L.start + tail + 1) (cache b.toNat))

/-- Copy committed blocks from the log to their home location. -/
def installTrans (L : LogArea) : List UInt32 → Nat → Device Nat Block → Device Nat Block
  | [], _, d => d
  | b :: bs, tail, d => installTrans L bs (tail + 1) (d.write b.toNat (d.store (L.start + tail + 1)))

/-- Write the in-memory header to disk: the point at which the transaction commits. -/
def writeHead (L : LogArea) (lh : List UInt32) (d : Device Nat Block) : Device Nat Block :=
  d.write L.start (putHead lh (d.store L.start))

/-- `cache` is what the buffer cache holds for the home blocks of the transaction. -/
def commit (L : LogArea) (lh : List UInt32) (cache : Disk) (d : Device Nat Block) :
    Device Nat Block :=
  if 0 < lh.length then
    writeHead L [] (installTrans L lh 0 (writeHead L lh (writeLog L cache lh 0 d)))
  else d

def recoverFromLog (L : LogArea) (d : Device Nat Block) : Device Nat Block :=
  writeHead L [] (installTrans L (readHead (d.store L.start)) 0 d)

def recovered (L : LogArea) (d : Disk) : Disk := (recoverFromLog L (Device.boot d)).store

theorem get_putEntries_of_lt (blk : Block) (lh : List UInt32) (i j : Nat) (h : j ≤ i) :
    u32.get (putEntries blk lh i) j = u32.get blk j := by
  induction lh generalizing blk i with
  | nil => rfl
  | cons b bs ih =>
    rw [putEntries, ih _ (i + 1) (by omega), Codec.get_put_of_ne _ _ _ _ _ _ (by omega)]

theorem get_putEntries (blk : Block) (lh : List UInt32) (i j : Nat) (hj : j < lh.length)
    (hroom : i + lh.length ≤ LOGSIZE) : u32.get (putEntries blk lh i) (i + j + 1) = lh[j] := by
  induction lh generalizing blk i j with
  | nil => simp at hj
  | cons b bs ih =>
    simp only [length_cons] at hj hroom
    cases j with
    | zero =>
      rw [putEntries, get_putEntries_of_lt _ _ _ _ (by omega)]
      exact Codec.get_put_self _ _ _ _ (by simp only [LOGSIZE, MAXOPBLOCKS, BSIZE] at *; omega)
    | succ j =>
      have h := ih (u32.put blk (i + 1) b) (i + 1) j (by omega) (by omega)
      simpa [putEntries, Nat.add_right_comm, Nat.add_assoc] using h

theorem toInt32_ofNat_small (n : Nat) (h : n ≤ LOGSIZE) :
    (UInt32.ofNat n).toInt32.toInt.toNat = n := by
  simp only [LOGSIZE, MAXOPBLOCKS] at h
  interval_cases n <;> decide

/-- The header block round-trips: what `write_head` stores, `read_head` loads. -/
theorem readHead_putHead (lh : List UInt32) (blk : Block) (h : lh.length ≤ LOGSIZE) :
    readHead (putHead lh blk) = lh := by
  have hn : u32.get (putHead lh blk) 0 = UInt32.ofNat lh.length := by
    rw [putHead, get_putEntries_of_lt _ _ _ _ (Nat.le_refl 0)]
    exact Codec.get_put_self _ _ _ _ (by simp [BSIZE])
  rw [readHead, hn, toInt32_ofNat_small _ h]
  apply ext_getElem
  · simp
  · intro i hi hi'
    have hg := get_putEntries (u32.put blk 0 (UInt32.ofNat lh.length)) lh 0 i hi' (by omega)
    simpa [putHead] using hg

def logWrites (L : LogArea) (cache : Disk) : List UInt32 → Nat → List (Nat × Block)
  | [], _ => []
  | b :: bs, tail => (L.start + tail + 1, cache b.toNat) :: logWrites L cache bs (tail + 1)

/-- The block writes of `install_trans` when the log holds the contents of `t`. -/
def homeWrites (t : Disk) (lh : List UInt32) : List (Nat × Block) :=
  lh.map fun b => (b.toNat, t b.toNat)

theorem writeLog_eq (L : LogArea) (cache : Disk) (lh : List UInt32) (tail : Nat)
    (d : Device Nat Block) : writeLog L cache lh tail d = d.extend (logWrites L cache lh tail) := by
  induction lh generalizing tail d with
  | nil => simp [writeLog, logWrites]
  | cons b bs ih =>
    rw [writeLog, ih, Device.write_eq_extend, Device.extend_extend]
    rfl

theorem installTrans_eq (L : LogArea) (t : Disk) (lh : List UInt32) (tail : Nat)
    (d : Device Nat Block) (hhome : ∀ b ∈ lh, L.Home b.toNat)
    (hroom : tail + lh.length + 1 ≤ L.size)
    (hlog : ∀ i (hi : i < lh.length), d.store (L.start + (tail + i) + 1) = t lh[i].toNat) :
    installTrans L lh tail d = d.extend (homeWrites t lh) := by
  induction lh generalizing tail d with
  | nil => simp [installTrans, homeWrites]
  | cons b bs ih =>
    simp only [length_cons] at hroom hlog
    have h0 : d.store (L.start + tail + 1) = t b.toNat := by simpa using hlog 0 (by omega)
    rw [installTrans, h0, ih]
    · rw [Device.write_eq_extend, Device.extend_extend]
      rfl
    · exact fun c hc => hhome c (by simp [hc])
    · omega
    intro i hi
    have hb := hhome b (by simp)
    have hne : L.start + (tail + 1 + i) + 1 ≠ b.toNat := by
      rcases hb with hb | hb <;> omega
    have hi' := hlog (i + 1) (by omega)
    rw [Device.write_eq_extend, Device.extend_store, applyWrites_cons, applyWrites_nil,
      Function.update_of_ne hne]
    simpa [Nat.add_assoc, Nat.add_comm 1 i] using hi'

end Xv6.Log
