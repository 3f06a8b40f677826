import Xv6.Framework.Ownership
import Xv6.Kernel.Fs.Syscall

namespace Xv6.Fs

open ByteCodec Ownership

/-- Places of an inode that can hold a block address: the direct addresses, the address of the
indirect block, and the entries of the indirect block. -/
def NSLOT : Nat := NDIRECT + 1 + NINDIRECT

def Dinode.ind (ip : Dinode) : UInt32 := ip.addrs (Fin.last NDIRECT)

/-- The block address at place `k`, 0 if there is none. -/
def slot (d : Disk) (ip : Dinode) (k : Nat) : UInt32 :=
  if h : k < NDIRECT + 1 then ip.addrs ⟨k, h⟩
  else if ip.ind = 0 then 0
  else u32.get (d ip.ind.toNat) (k - (NDIRECT + 1))

/-- The place of the address of the `bn`th block of a file. -/
def slotOf (bn : Nat) : Nat := if bn < NDIRECT then bn else bn + 1

theorem slotOf_ne_ind (bn : Nat) : slotOf bn ≠ NDIRECT := by
  simp only [slotOf]
  split_ifs <;> omega

theorem slotOf_inj {a b : Nat} (h : slotOf a = slotOf b) : a = b := by
  simp only [slotOf] at h
  split_ifs at h <;> omega

theorem blockAt_eq_slot (d : Disk) (ip : Dinode) (bn : Nat) :
    blockAt d ip bn = slot d ip (slotOf bn) := by
  unfold blockAt slot slotOf
  by_cases h : bn < NDIRECT
  · simp [h, Nat.lt_succ_of_lt h]
  · have h' : ¬ bn + 1 < NDIRECT + 1 := by omega
    have he : bn + 1 - (NDIRECT + 1) = bn - NDIRECT := by omega
    simp only [h, h', he, if_false, dif_neg, not_false_eq_true, Dinode.ind]

theorem u32_get_ge (a : Block) {j : Nat} (h : NINDIRECT ≤ j) : u32.get a j = 0 := by
  have hb : ∀ x : Fin 4, ¬ j * 4 + x.val < BSIZE := by
    intro x
    simp only [NINDIRECT, BSIZE] at *
    omega
  simp only [Codec.get, hb, dif_neg, not_false_eq_true]
  rfl

variable {k : Nat}

theorem slot_ge (d : Disk) (ip : Dinode) (h : NSLOT ≤ k) : slot d ip k = 0 := by
  unfold NSLOT at h
  unfold slot
  rw [dif_neg (by omega)]
  split_ifs
  · rfl
  · exact u32_get_ge _ (by omega)

variable {d : Disk} {ip : Dinode}

theorem lt_of_slot_ne (h : slot d ip k ≠ 0) : k < NSLOT := by
  by_contra hk
  exact h (slot_ge d ip (not_lt.mp hk))

section

variable (d : Disk) (ip : Dinode)

theorem slot_ind : slot d ip NDIRECT = ip.ind := by
  unfold slot
  rw [dif_pos (by decide)]
  rfl

theorem slot_direct (k : Fin (NDIRECT + 1)) : slot d ip k.val = ip.addrs k := by
  unfold slot
  rw [dif_pos k.isLt]

theorem slot_entry (hk : NDIRECT < k) (h : ip.ind ≠ 0) :
    slot d ip k = u32.get (d ip.ind.toNat) (k - (NDIRECT + 1)) := by
  unfold slot
  rw [dif_neg (by omega), if_neg h]

end

theorem slot_congr {d' : Disk} {ip' : Dinode} (ha : ip'.addrs = ip.addrs)
    (hd : ip.ind ≠ 0 → d' ip.ind.toNat = d ip.ind.toNat) (k : Nat) :
    slot d' ip' k = slot d ip k := by
  have hi : ip'.ind = ip.ind := congrFun ha _
  unfold slot
  rw [ha, hi]
  split_ifs with h1 h2
  · rfl
  · rfl
  · rw [hd h2]

/-- What a file shows: its attributes and the contents of its blocks, absent blocks reading as
zeros. -/
@[ext] structure View where
  type : Int16
  major : Int16
  minor : Int16
  nlink : Int16
  size : Nat
  data : Nat → Block

def view (d : Disk) (ip : Dinode) : View where
  type := ip.type
  major := ip.major
  minor := ip.minor
  nlink := ip.nlink
  size := ip.size.toNat
  data bn := if blockAt d ip bn = 0 then fun _ => 0 else d (blockAt d ip bn).toNat

theorem view_size {d : Disk} {ip : Dinode} {v : View} (h : view d ip = v) :
    ip.size.toNat = v.size := h ▸ rfl

/-- Two inodes alike except for their block addresses. -/
structure SameAttrs (ip' ip : Dinode) : Prop where
  type : ip'.type = ip.type
  major : ip'.major = ip.major
  minor : ip'.minor = ip.minor
  nlink : ip'.nlink = ip.nlink
  size : ip'.size = ip.size

theorem SameAttrs.refl (ip : Dinode) : SameAttrs ip ip := ⟨rfl, rfl, rfl, rfl, rfl⟩

theorem SameAttrs.trans {ip' ip'' : Dinode} (h : SameAttrs ip' ip) (h' : SameAttrs ip'' ip') :
    SameAttrs ip'' ip :=
  ⟨h'.type.trans h.type, h'.major.trans h.major, h'.minor.trans h.minor, h'.nlink.trans h.nlink,
    h'.size.trans h.size⟩

theorem view_congr {d' : Disk} {ip' : Dinode} (h : SameAttrs ip' ip)
    (hdata : ∀ bn, (view d' ip').data bn = (view d ip).data bn) : view d' ip' = view d ip := by
  ext1
  · exact h.type
  · exact h.major
  · exact h.minor
  · exact h.nlink
  · exact congrArg UInt32.toNat h.size
  · exact funext hdata

section Image

variable (sb : Superblock) (d : Disk) (ino : Nat → Dinode)

def Allocated (i : Nat) : Prop := i < sb.ninodes ∧ (ino i).type ≠ 0

instance (i : Nat) : Decidable (Allocated sb ino i) := inferInstanceAs (Decidable (_ ∧ _))

/-- The block held at place `k` of inode `i`, for `p = (i, k)`. -/
def place (p : Nat × Nat) : Option Nat :=
  if Allocated sb ino p.1 ∧ slot d (ino p.1) p.2 ≠ 0 then some (slot d (ino p.1) p.2).toNat
  else none

/-- The data blocks marked in the free map. -/
def dataInUse : Set Nat := {b | sb.nmeta ≤ b ∧ b < sb.size ∧ used sb d b = true}

/-- Block ownership, and no holes below the size of a file, for a disk whose inodes are `ino`. -/
structure Img : Prop where
  excl : Exclusive (place sb d ino) (dataInUse sb d)
  metaUsed : ∀ b, b < sb.nmeta → used sb d b = true
  bound : ∀ i, Allocated sb ino i → (ino i).size.toNat ≤ MAXFILE * BSIZE
  noHole : ∀ i, Allocated sb ino i → ∀ bn, bn * BSIZE < (ino i).size.toNat →
    blockAt d (ino i) bn ≠ 0

def files (i : Nat) : Option View := if Allocated sb ino i then some (view d (ino i)) else none

variable {sb d ino} {d' : Disk} {ino' : Nat → Dinode} {i : Nat}

theorem place_eq_some {p : Nat × Nat} {b : Nat} :
    place sb d ino p = some b ↔
      Allocated sb ino p.1 ∧ slot d (ino p.1) p.2 ≠ 0 ∧ (slot d (ino p.1) p.2).toNat = b := by
  unfold place
  split_ifs with h
  · simp [h]
  · constructor
    · intro hb
      cases hb
    · intro hb
      exact absurd ⟨hb.1, hb.2.1⟩ h

theorem place_slot (hi : Allocated sb ino i) (hk : slot d (ino i) k ≠ 0) :
    place sb d ino (i, k) = some (slot d (ino i) k).toNat := place_eq_some.mpr ⟨hi, hk, rfl⟩

theorem files_of_allocated (hi : Allocated sb ino i) : files sb d ino i = some (view d (ino i)) :=
  if_pos hi

theorem files_eq_some {v : View} :
    files sb d ino i = some v ↔ Allocated sb ino i ∧ view d (ino i) = v := by
  unfold files
  split_ifs with h <;> simp [h]

namespace Img

section

variable (h : Img sb d ino) (hi : Allocated sb ino i)
include h hi

theorem slot_mem (hk : slot d (ino i) k ≠ 0) :
    sb.nmeta ≤ (slot d (ino i) k).toNat ∧ (slot d (ino i) k).toNat < sb.size ∧
      used sb d (slot d (ino i) k).toNat = true := h.excl.mem (place_slot hi hk)

theorem slot_inj {j l : Nat} (hj : Allocated sb ino j) (hk : slot d (ino i) k ≠ 0)
    (he : slot d (ino j) l = slot d (ino i) k) : j = i ∧ l = k := by
  have hp := h.excl.inj (j, l) (i, k) _ (place_slot hj (he ▸ hk))
    ((place_slot hi hk).trans (by rw [he]))
  exact ⟨congrArg Prod.fst hp, congrArg Prod.snd hp⟩

theorem ind_mem (hk : (ino i).ind ≠ 0) :
    sb.nmeta ≤ (ino i).ind.toNat ∧ (ino i).ind.toNat < sb.size ∧
      used sb d (ino i).ind.toNat = true := by
  have := h.slot_mem hi (k := NDIRECT)
  rw [slot_ind] at this
  exact this hk

theorem blockAt_mem {bn : Nat} (hk : blockAt d (ino i) bn ≠ 0) :
    sb.nmeta ≤ (blockAt d (ino i) bn).toNat ∧ (blockAt d (ino i) bn).toNat < sb.size ∧
      used sb d (blockAt d (ino i) bn).toNat = true := by
  rw [blockAt_eq_slot] at *
  exact h.slot_mem hi hk

end

/-- The image depends on the inodes only through their places, types and sizes. -/
theorem congr (h : Img sb d ino) (halloc : ∀ j, Allocated sb ino' j ↔ Allocated sb ino j)
    (hsize : ∀ j, Allocated sb ino j → (ino' j).size = (ino j).size)
    (hslot : ∀ j, Allocated sb ino j → ∀ k, slot d' (ino' j) k = slot d (ino j) k)
    (hused : ∀ b, b < sb.size → used sb d' b = used sb d b) : Img sb d' ino' := by
  constructor
  · apply h.excl.congr
    · rintro ⟨j, k⟩
      unfold place
      by_cases hj : Allocated sb ino j
      · simp only [halloc, hj, hslot j hj k]
      · simp only [halloc, hj, false_and, if_false]
    · intro b
      constructor <;> rintro ⟨h1, h2, h3⟩
      · exact ⟨h1, h2, hused b h2 ▸ h3⟩
      · exact ⟨h1, h2, (hused b h2).trans h3⟩
  · intro b hb
    rw [hused b (lt_of_lt_of_le hb sb.nmeta_le)]
    exact h.metaUsed b hb
  · intro j hj
    rw [halloc] at hj
    rw [hsize j hj]
    exact h.bound j hj
  · intro j hj bn hbn
    rw [halloc] at hj
    rw [hsize j hj] at hbn
    rw [blockAt_eq_slot, hslot j hj, ← blockAt_eq_slot]
    exact h.noHole j hj bn hbn

end Img

/-- A disk that differs only before the free map shows the same image. -/
theorem Img.congr_inodes (h : Img sb d ino) (hd : ∀ b, sb.bmapstart ≤ b → d' b = d b) :
    Img sb d' ino ∧ files sb d' ino = files sb d ino := by
  have hge : ∀ {b}, sb.nmeta ≤ b → d' b = d b := fun hb => hd _ (sb.bmapstart_lt.le.trans hb)
  have hslot : ∀ j, Allocated sb ino j → ∀ k, slot d' (ino j) k = slot d (ino j) k := by
    intro j hj
    exact slot_congr rfl fun hk => hge (h.ind_mem hj hk).1
  constructor
  · apply h.congr (fun j => Iff.rfl) (fun _ _ => rfl) hslot
    intro b _
    exact used_congr sb d (hd _ (sb.bblock_ge b))
  funext j
  unfold files
  split_ifs with hj
  · congr 1
    apply view_congr (.refl _)
    intro bn
    simp only [view]
    rw [blockAt_eq_slot, blockAt_eq_slot, hslot j hj]
    split_ifs with h0
    · rfl
    · exact hge (h.slot_mem hj h0).1
  · rfl

theorem Img.putDinode {i : Nat} {ip : Dinode} (h : Img sb d ino) (hi : i < sb.ninodes)
    (hd : d' = Fs.putDinode sb d i ip) : Img sb d' ino ∧ files sb d' ino = files sb d ino := by
  refine h.congr_inodes fun b hb => ?_
  have := sb.iblock_lt hi
  rw [hd, Fs.putDinode, Function.update_of_ne (by omega)]

theorem Img.congr_ino (h : Img sb d ino) (hino : ∀ j, j < sb.ninodes → ino' j = ino j) :
    Img sb d ino' ∧ files sb d ino' = files sb d ino := by
  have halloc : ∀ j, Allocated sb ino' j ↔ Allocated sb ino j := by
    intro j
    unfold Allocated
    by_cases hj : j < sb.ninodes
    · rw [hino j hj]
    · simp [hj]
  constructor
  · apply h.congr halloc
    · intro j hj
      rw [hino j hj.1]
    · intro j hj k
      rw [hino j hj.1]
    · intro b _
      rfl
  · funext j
    unfold files
    by_cases hj : Allocated sb ino j
    · rw [if_pos hj, if_pos ((halloc j).mpr hj), hino j hj.1]
    · rw [if_neg hj, if_neg (mt (halloc j).mp hj)]

end Image

end Xv6.Fs
