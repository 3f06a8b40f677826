import Xv6.Framework.ByteCodec
import Xv6.Kernel.Param

namespace Xv6.Fs

open ByteCodec Function Nat

def NDIRECT : Nat := 12
def NINDIRECT : Nat := BSIZE / 4
def MAXFILE : Nat := NDIRECT + NINDIRECT
def IPB : Nat := BSIZE / 64
def BPB : Nat := BSIZE * 8
def DIRSIZ : Nat := 14

def T_DIR : Int16 := 1
def T_FILE : Int16 := 2
def T_DEVICE : Int16 := 3

/-- `struct dinode`. -/
@[ext] structure Dinode where
  type : Int16
  major : Int16
  minor : Int16
  nlink : Int16
  size : UInt32
  addrs : Fin (NDIRECT + 1) → UInt32
  deriving DecidableEq

def Dinode.zero : Dinode := ⟨0, 0, 0, 0, 0, fun _ => 0⟩

/-- `struct dirent`. -/
@[ext] structure Dirent where
  inum : UInt16
  name : Fin DIRSIZ → UInt8
  deriving DecidableEq

def Dirent.zero : Dirent := ⟨0, fun _ => 0⟩

instance dinodeSize_neZero : NeZero 64 := ⟨by decide⟩

instance direntSize_neZero : NeZero 16 := ⟨by decide⟩

def dinode : Codec Dinode 64 :=
  (i16.prod (i16.prod (i16.prod (i16.prod (u32.prod (u32.array 13)))))).iso
    (fun d => (d.type, d.major, d.minor, d.nlink, d.size, d.addrs))
    (fun x => ⟨x.1, x.2.1, x.2.2.1, x.2.2.2.1, x.2.2.2.2.1, x.2.2.2.2.2⟩)
    (fun _ => rfl)

def dirent : Codec Dirent 16 :=
  (u16.prod (u8.array 14)).iso (fun d => (d.inum, d.name)) (fun x => ⟨x.1, x.2⟩) (fun _ => rfl)

/-- The superblock as `fsinit` leaves it, and the disk layout it describes:
boot block, super block, log, inode blocks, free bit map, data blocks. -/
structure Superblock where
  size : Nat
  ninodes : Nat
  nlog : Nat
  logstart : Nat
  inodestart : Nat
  bmapstart : Nat
  size_lt : size < 2 ^ 32
  root_lt : ROOTINO < ninodes
  log_le : logstart + nlog ≤ inodestart
  inode_le : inodestart + ninodes / IPB + 1 ≤ bmapstart
  bmap_le : bmapstart + size / BPB + 1 ≤ size

variable {i b : Nat}

namespace Superblock

variable (sb : Superblock)

def nmeta : Nat := sb.bmapstart + sb.size / BPB + 1

def iblock (i : Nat) : Nat := i / IPB + sb.inodestart

def bblock (b : Nat) : Nat := b / BPB + sb.bmapstart

theorem iblock_lt (h : i < sb.ninodes) : sb.iblock i < sb.bmapstart := by
  have h1 := sb.inode_le
  have h2 : i / IPB ≤ sb.ninodes / IPB := Nat.div_le_div_right h.le
  unfold iblock
  omega

theorem bblock_ge (b : Nat) : sb.bmapstart ≤ sb.bblock b := Nat.le_add_left _ _

theorem bblock_lt (h : b < sb.size) : sb.bblock b < sb.nmeta := by
  have h2 : b / BPB ≤ sb.size / BPB := Nat.div_le_div_right h.le
  unfold bblock nmeta
  omega

theorem bmapstart_lt : sb.bmapstart < sb.nmeta := lt_succ_of_le (Nat.le_add_right _ _)

theorem nmeta_le : sb.nmeta ≤ sb.size := sb.bmap_le

end Superblock

/-- The bit of block `bi` within its byte of the free map. -/
def mask (bi : Nat) : UInt8 := 1 <<< UInt8.ofNat (bi % 8)

/-- The byte of a bitmap block that holds bit `bi`. -/
def byteOf (bi : Nat) : Fin BSIZE := Fin.ofNat BSIZE (bi / 8)

def testBit (data : Block) (bi : Nat) : Bool := (data (byteOf bi) &&& mask bi) ≠ 0

def setBit (data : Block) (bi : Nat) : Block :=
  update data (byteOf bi) (data (byteOf bi) ||| mask bi)

def clearBit (data : Block) (bi : Nat) : Block :=
  update data (byteOf bi) (data (byteOf bi) &&& ~~~ mask bi)

theorem mask_getLsbD (bi k : Nat) (hk : k < 8) :
    (mask bi).toBitVec.getLsbD k = decide (k = bi % 8) := by
  have h : ∀ m k : Fin 8,
      (1 <<< UInt8.ofNat m.val : UInt8).toBitVec.getLsbD k = decide (k.val = m.val) := by decide
  exact h ⟨bi % 8, mod_lt _ (by decide)⟩ ⟨k, hk⟩

theorem testBit_eq (data : Block) (bi : Nat) :
    testBit data bi = (data (byteOf bi)).toBitVec.getLsbD (bi % 8) := by
  have hm : bi % 8 < 8 := mod_lt _ (by decide)
  have hself := mask_getLsbD bi (bi % 8) hm
  generalize hx : data (byteOf bi) = x
  have hiff : x &&& mask bi ≠ 0 ↔ x.toBitVec.getLsbD (bi % 8) = true := by
    constructor
    · intro hne
      by_contra hbit
      apply hne
      apply UInt8.toBitVec_inj.mp
      apply BitVec.eq_of_getLsbD_eq
      intro k hk
      rw [UInt8.toBitVec_and, BitVec.getLsbD_and, mask_getLsbD bi k hk]
      by_cases hkm : k = bi % 8
      · subst hkm
        simpa using hbit
      · simp [hkm]
    · intro hbit hzero
      have := congrArg (fun y : UInt8 => y.toBitVec.getLsbD (bi % 8)) hzero
      simp [hbit, hself] at this
  simp only [testBit, hx, hiff]
  simp

variable {bi bj : Nat}

theorem byteOf_inj (hi : bi < BPB) (hj : bj < BPB) (h : byteOf bi = byteOf bj) :
    bi / 8 = bj / 8 := by
  have hv : bi / 8 % BSIZE = bj / 8 % BSIZE := congrArg Fin.val h
  simp only [BPB, BSIZE] at hv hi hj
  omega

theorem testBit_setBit (data : Block) (hi : bi < BPB) (hj : bj < BPB) :
    testBit (setBit data bi) bj = (decide (bj = bi) || testBit data bj) := by
  have hm : bj % 8 < 8 := mod_lt _ (by decide)
  rw [testBit_eq, testBit_eq, setBit]
  by_cases hb : byteOf bj = byteOf bi
  · have hd := byteOf_inj hj hi hb
    rw [hb, update_self, UInt8.toBitVec_or, BitVec.getLsbD_or, mask_getLsbD bi _ hm, Bool.or_comm]
    congr 1
    apply decide_eq_decide.mpr
    omega
  · have hne : bj ≠ bi := fun h => hb (by rw [h])
    rw [update_of_ne hb]
    simp [hne]

theorem testBit_clearBit (data : Block) (hi : bi < BPB) (hj : bj < BPB) :
    testBit (clearBit data bi) bj = (!decide (bj = bi) && testBit data bj) := by
  have hm : bj % 8 < 8 := mod_lt _ (by decide)
  rw [testBit_eq, testBit_eq, clearBit]
  by_cases hb : byteOf bj = byteOf bi
  · have hd := byteOf_inj hj hi hb
    rw [hb, update_self, UInt8.toBitVec_and, UInt8.toBitVec_not, BitVec.getLsbD_and,
      BitVec.getLsbD_not, mask_getLsbD bi _ hm, Bool.and_comm]
    congr 1
    have : (bj % 8 = bi % 8) ↔ bj = bi := by omega
    simp [hm, this]
  · have hne : bj ≠ bi := fun h => hb (by rw [h])
    rw [update_of_ne hb]
    simp [hne]

section Accessors

variable (sb : Superblock) (d : Disk)

def used (b : Nat) : Bool := testBit (d (sb.bblock b)) (b % BPB)

def dinodeAt (i : Nat) : Dinode := dinode.get (d (sb.iblock i)) (i % IPB)

def putDinode (i : Nat) (f : Dinode) : Disk :=
  update d (sb.iblock i) (dinode.put (d (sb.iblock i)) (i % IPB) f)

def markUsed (b : Nat) : Disk :=
  update d (sb.bblock b) (setBit (d (sb.bblock b)) (b % BPB))

def markFree (b : Nat) : Disk :=
  update d (sb.bblock b) (clearBit (d (sb.bblock b)) (b % BPB))

theorem bit_lt (b : Nat) : b % BPB < BPB := mod_lt _ (by decide)

theorem bblock_inj {c : Nat} (h : sb.bblock b = sb.bblock c) : b % BPB = c % BPB ↔ b = c := by
  unfold Superblock.bblock at h
  have h1 := div_add_mod b BPB
  have h2 := div_add_mod c BPB
  constructor
  · intro hm
    rw [← h1, ← h2, hm, show b / BPB = c / BPB by omega]
  · rintro rfl
    rfl

theorem used_markUsed (b c : Nat) :
    used sb (markUsed sb d b) c = (decide (c = b) || used sb d c) := by
  unfold used markUsed
  by_cases h : sb.bblock c = sb.bblock b
  · rw [h, update_self, testBit_setBit _ (bit_lt b) (bit_lt c)]
    simp only [bblock_inj sb h]
  · have hne : c ≠ b := fun he => h (by rw [he])
    rw [update_of_ne h]
    simp [hne]

theorem used_markFree (b c : Nat) :
    used sb (markFree sb d b) c = (!decide (c = b) && used sb d c) := by
  unfold used markFree
  by_cases h : sb.bblock c = sb.bblock b
  · rw [h, update_self, testBit_clearBit _ (bit_lt b) (bit_lt c)]
    simp only [bblock_inj sb h]
  · have hne : c ≠ b := fun he => h (by rw [he])
    rw [update_of_ne h]
    simp [hne]

theorem iblock_inj {j : Nat} (h : sb.iblock i = sb.iblock j) : i % IPB = j % IPB ↔ i = j := by
  unfold Superblock.iblock at h
  have h1 := div_add_mod i IPB
  have h2 := div_add_mod j IPB
  constructor
  · intro hm
    rw [← h1, ← h2, hm, show i / IPB = j / IPB by omega]
  · rintro rfl
    rfl

theorem dinodeAt_putDinode_self (i : Nat) (f : Dinode) :
    dinodeAt sb (putDinode sb d i f) i = f := by
  unfold dinodeAt putDinode
  rw [update_self]
  apply Codec.get_put_self
  have : i % IPB < IPB := mod_lt _ (by decide)
  simp only [IPB, BSIZE] at *
  omega

theorem dinodeAt_putDinode_of_ne {j : Nat} (f : Dinode) (h : j ≠ i) :
    dinodeAt sb (putDinode sb d i f) j = dinodeAt sb d j := by
  unfold dinodeAt putDinode
  by_cases hb : sb.iblock j = sb.iblock i
  · rw [hb, update_self]
    apply Codec.get_put_of_ne
    rw [ne_eq, iblock_inj sb hb]
    exact h
  · rw [update_of_ne hb]

theorem dinodeAt_congr {e : Disk} (h : e (sb.iblock i) = d (sb.iblock i)) :
    dinodeAt sb e i = dinodeAt sb d i := by
  unfold dinodeAt
  rw [h]

theorem dinodeAt_putDinode {d1 d2 : Disk} {f : Dinode} (hd : d2 = putDinode sb d1 i f)
    (hother : ∀ j, j < sb.ninodes → j ≠ i → dinodeAt sb d1 j = dinodeAt sb d j) (j : Nat)
    (hj : j < sb.ninodes) : dinodeAt sb d2 j = update (dinodeAt sb d) i f j := by
  by_cases hji : j = i
  · rw [hd, hji, dinodeAt_putDinode_self, update_self]
  · rw [hd, dinodeAt_putDinode_of_ne _ _ _ hji, update_of_ne hji, hother j hj hji]

theorem used_congr {e : Disk} (h : e (sb.bblock b) = d (sb.bblock b)) :
    used sb e b = used sb d b := by
  unfold used
  rw [h]

end Accessors

end Xv6.Fs
