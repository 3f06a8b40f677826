import Xv6.Kernel.Fs.IoSpec
import Xv6.Mkfs.Mkfs

namespace Xv6.Mkfs

open ByteCodec Hoare Fs Function Nat UInt32

/-- The disk as it would be if `mkfs` wrote the bitmap now. -/
def image (s : State) : Disk := update s.disk sb.bmapstart (bitmap s.freeblock)

/-- `mkfs` may fail, however it does, only if there is no `room`. -/
def Unless (room : Prop) (_ : Failure) : Prop := ¬ room

/-- The image so far, with inodes `ino`: all blocks below `freeblock` are in use, the others are
zero. -/
structure Built (s : State) (ino : Nat → Dinode) : Prop where
  img : Img sb (image s) ino
  nsect : s.nsect = FSSIZE
  ge : nmeta ≤ s.freeblock
  le : s.freeblock ≤ FSSIZE
  fresh : ∀ b, s.freeblock ≤ b → s.disk b = zeroes

variable {s s' : State} {ino : Nat → Dinode} {i : Nat} {room : Prop}

theorem sb_nmeta : sb.nmeta = nmeta := by decide

theorem bmapstart_lt_nmeta : sb.bmapstart < nmeta := by decide

variable {b : Nat}

theorem image_of_ne (h : b ≠ sb.bmapstart) : image s b = s.disk b := update_of_ne h ..

theorem used_image (hle : s.freeblock ≤ BPB) (hb : b < FSSIZE) :
    used sb (image s) b = decide (b < s.freeblock) := by
  have hlt : b < BPB := hb.trans (by decide)
  have hblock : sb.bblock b = sb.bmapstart := by
    unfold Superblock.bblock
    rw [div_eq_of_lt hlt, Nat.zero_add]
  unfold used
  rw [hblock, image, update_self, mod_eq_of_lt hlt]
  exact testBit_bitmap hle hlt

theorem FSSIZE_le_BPB : FSSIZE + 1 ≤ BPB := by decide

theorem toNat_ofNat_block (h : b ≤ FSSIZE) : (ofNat b).toNat = b :=
  toNat_ofNat_of_lt' (h.trans_lt (by decide))

/-- The state after `freeblock++`. -/
def State.take (s : State) : State := { s with freeblock := s.freeblock + 1 }

theorem take_image_of_ne (h : b ≠ sb.bmapstart) : image s.take b = image s b := by
  rw [image_of_ne h, image_of_ne h]
  rfl

/-- The next free block, as the file system layer sees its allocation. -/
theorem Built.grown (h : Built s ino) (hlt : s.freeblock < FSSIZE) :
    Grown sb (image s) (image s.take) (ofNat s.freeblock) := by
  have hr := toNat_ofNat_block hlt.le
  have hge := h.ge
  have hmeta := bmapstart_lt_nmeta
  have hbpb := FSSIZE_le_BPB
  have hne : s.freeblock ≠ sb.bmapstart := by omega
  constructor
  · intro h0
    rw [h0] at hr
    have : (0 : UInt32).toNat = 0 := rfl
    omega
  · rw [hr, sb_nmeta]
    exact hge
  · rw [hr]
    exact hlt
  · rw [hr, used_image (by omega) hlt]
    simp
  · intro b hb
    exact take_image_of_ne (by omega)
  · intro c hc
    have hc : c < FSSIZE := hc
    have htake : s.take.freeblock = s.freeblock + 1 := rfl
    rw [hr, used_image (by omega) hc, used_image (by omega) hc, htake]
    by_cases hcf : c = s.freeblock
    · simp [hcf]
    · have : c < s.freeblock + 1 ↔ c < s.freeblock := by omega
      simp [hcf, this]
  · rw [hr, take_image_of_ne hne, image_of_ne hne]
    exact h.fresh _ (le_refl _)
  · intro b hb _
    rw [sb_nmeta] at hb
    exact take_image_of_ne (by omega)

/-- Inode `i` may have gained the block `m` of its file; `din` is the inode in memory, which the
image does not hold yet. -/
structure Grew (s s' : State) (ino : Nat → Dinode) (i m : Nat) (din : Dinode) : Prop where
  built : Built s' (update ino i din)
  files : files sb (image s') (update ino i din) = files sb (image s) ino
  attrs : SameAttrs din (ino i)
  keep : ∀ bn, bn ≠ m ∨ blockAt (image s) (ino i) bn ≠ 0 →
    blockAt (image s') din bn = blockAt (image s) (ino i) bn
  others : ∀ j, j ≠ i → Allocated sb ino j → ∀ bn,
    blockAt (image s') (ino j) bn = blockAt (image s) (ino j) bn
  inodes : ∀ b, b < sb.bmapstart → s'.disk b = s.disk b
  freeinode : s'.freeinode = s.freeinode

theorem Grew.refl (h : Built s ino) (i m : Nat) : Grew s s ino i m (ino i) where
  built := by rwa [update_eq_self]
  files := by rw [update_eq_self]
  attrs := .refl _
  keep _ _ := rfl
  others _ _ _ _ := rfl
  inodes _ _ := rfl
  freeinode := rfl

variable {m : Nat} {din : Dinode}

theorem Grew.trans {s'' : State} {din' : Dinode} (h : Grew s s' ino i m din)
    (h' : Grew s' s'' (update ino i din) i m din') : Grew s s'' ino i m din' where
  built := by
    have := h'.built
    rwa [update_idem] at this
  files := by
    have := h'.files
    rw [update_idem] at this
    exact this.trans h.files
  attrs := by
    have := h'.attrs
    rw [update_self] at this
    exact h.attrs.trans this
  keep bn hbn := by
    have h1 := h.keep bn hbn
    have h2 := h'.keep bn
    rw [update_self, h1] at h2
    exact h2 hbn
  others j hj hal bn := by
    have h2 := h'.others j hj ((allocated_update sb h.attrs.type j).mpr hal) bn
    rw [update_of_ne hj] at h2
    exact h2.trans (h.others j hj hal bn)
  inodes b hb := (h'.inodes b hb).trans (h.inodes b hb)
  freeinode := h'.freeinode.trans h.freeinode

theorem Grew.of_assigned {k : Nat} {r : UInt32} (h : Built s ino)
    (a : Assigned sb (image s) (image s') ino i din k r) (hk : ∀ bn, slotOf bn = k → bn = m)
    (hin : ∀ b, b < sb.bmapstart → s'.disk b = s.disk b) (hn : s'.nsect = s.nsect)
    (hfi : s'.freeinode = s.freeinode) (hfb : s'.freeblock = s.freeblock + 1)
    (hlt : s.freeblock < FSSIZE) (hfresh : ∀ b, s.freeblock < b → s'.disk b = s.disk b) :
    Grew s s' ino i m din where
  built := by
    refine ⟨a.img h.img, hn.trans h.nsect, ?_, ?_, ?_⟩
    · have := h.ge
      omega
    · omega
    · intro b hb
      rw [hfresh b (by omega)]
      exact h.fresh b (by omega)
  files := a.files_eq
  attrs := a.attrs
  keep bn hbn := by
    have hself := a.self (slotOf bn)
    rw [blockAt_eq_slot, blockAt_eq_slot, hself]
    by_cases hs : slotOf bn = k
    · cases hbn with
      | inl hbn => exact absurd (hk bn hs) hbn
      | inr hbn =>
        rw [blockAt_eq_slot, hs, a.empty] at hbn
        exact absurd rfl hbn
    · rw [if_neg hs]
  others j hj hal bn := by
    rw [blockAt_eq_slot, blockAt_eq_slot]
    exact a.other j hj hal _
  inodes := hin
  freeinode := hfi

theorem wp_take {Q : UInt32 → State → Prop} :
    Wp (Unless room) takeBlock s Q ↔ Q (ofNat s.freeblock) s.take := Iff.rfl

theorem wp_wsect {sec : Nat} {buf : Block} {Q : PUnit → State → Prop} :
    Wp (Unless room) (wsect sec buf) s Q ↔
      Q ⟨⟩ { s with disk := update s.disk sec buf, nsect := max s.nsect (sec + 1) } :=
  Iff.rfl

theorem wp_rsect {sec : Nat} {Q : Block → State → Prop} (hroom : room → sec < s.nsect)
    (h : sec < s.nsect → Q (s.disk sec) s) : Wp (Unless room) (rsect sec) s Q := by
  rw [rsect, wp_bind, wp_get, wp_ite]
  split_ifs with hlt
  · exact h hlt
  · exact fun hr => hlt (hroom hr)

section

variable (h : Built s ino) (hi : Allocated sb ino i) (hlt : s.freeblock < FSSIZE)
include h hi hlt

theorem take_direct (k : Fin (NDIRECT + 1)) (hk : (ino i).addrs k = 0)
    (hm : ∀ bn, slotOf bn = k.val → bn = m) :
    Grew s s.take ino i m ((ino i).withAddr k (ofNat s.freeblock)) := by
  have ha := assigned_direct h.img hi (h.grown hlt) k hk
  exact .of_assigned h ha hm (fun _ _ => rfl) rfl rfl rfl hlt (fun _ _ => rfl)

theorem take_entry (hind : (ino i).ind ≠ 0) (hm : NDIRECT ≤ m) (hmax : m < MAXFILE)
    (hz : u32.get (s.disk (ino i).ind.toNat) (m - NDIRECT) = 0)
    (hs' : s' = { s.take with
      disk := update s.disk (ino i).ind.toNat
        (u32.put (s.disk (ino i).ind.toNat) (m - NDIRECT) (ofNat s.freeblock)),
      nsect := max s.nsect ((ino i).ind.toNat + 1) }) :
    Grew s s' ino i m (ino i) ∧ blockAt (image s') (ino i) m = ofNat s.freeblock := by
  obtain ⟨hge, hsz, hused⟩ := h.img.ind_mem hi hind
  have hmeta := bmapstart_lt_nmeta
  rw [sb_nmeta] at hge
  have hfb : (ino i).ind.toNat < s.freeblock := by
    have hbpb := FSSIZE_le_BPB
    rw [used_image (by omega) hsz] at hused
    simpa using hused
  have hne : (ino i).ind.toNat ≠ sb.bmapstart := by omega
  have himg : image s (ino i).ind.toNat = s.disk (ino i).ind.toNat := image_of_ne hne
  have hn : m - NDIRECT < NINDIRECT := by
    unfold MAXFILE at hmax
    omega
  have ha := assigned_entry h.img hi (h.grown hlt) hind hn (by rw [himg]; exact hz)
  have himg' : image s' = update (image s.take) (ino i).ind.toNat
      (u32.put (image s (ino i).ind.toNat) (m - NDIRECT) (ofNat s.freeblock)) := by
    rw [hs', himg]
    exact (update_comm hne.symm ..).symm
  rw [← himg'] at ha
  constructor
  · apply Grew.of_assigned h ha
    · intro bn hbn
      simp only [slotOf] at hbn
      split_ifs at hbn <;> omega
    · intro b hb
      rw [hs']
      exact update_of_ne (by omega) ..
    · rw [hs']
      have hns := h.nsect
      change max s.nsect _ = s.nsect
      have : (ino i).ind.toNat < FSSIZE := hsz
      omega
    · rw [hs']
      rfl
    · rw [hs']
      rfl
    · exact hlt
    · intro b hb
      rw [hs']
      exact update_of_ne (by omega) ..
  · have hself := ha.self (NDIRECT + 1 + (m - NDIRECT))
    rw [if_pos rfl] at hself
    rw [blockAt_eq_slot, slotOf, if_neg (by omega), ← hself]
    congr 1
    omega

end

theorem zeroes_get (k : Nat) : u32.get zeroes k = 0 := by
  have hz : u32.get zeroes k = u32.dec fun _ => 0 := by
    unfold Codec.get zeroes
    congr 1
    funext j
    simp
  rw [hz]
  rfl

/-- Blocks that `iappend` takes to have the block `m` of a file. -/
def needed (d : Disk) (din : Dinode) (m : Nat) : Nat :=
  (if NDIRECT ≤ m ∧ din.ind = 0 then 1 else 0) + if blockAt d din m = 0 then 1 else 0

variable {d : Disk}

theorem needed_direct (hm : m < NDIRECT) :
    needed d din m = if din.addrs ⟨m, lt_succ_of_lt hm⟩ = 0 then 1 else 0 := by
  rw [needed, if_neg (by omega), Nat.zero_add, blockAt, dif_pos hm]

theorem needed_indirect (hm : ¬ m < NDIRECT) (hind : din.ind ≠ 0) :
    needed d din m = if u32.get (d din.ind.toNat) (m - NDIRECT) = 0 then 1 else 0 := by
  rw [needed, if_neg fun h => hind h.2, Nat.zero_add, blockAt, dif_neg hm, ← Dinode.ind,
    if_neg hind]

/-- A file whose indirect block is yet to be allocated lacks the block as well. -/
theorem needed_of_ind_eq_zero (hm : ¬ m < NDIRECT) (hind : din.ind = 0) : needed d din m = 2 := by
  rw [needed, if_pos ⟨by omega, hind⟩, blockAt, dif_neg hm, ← Dinode.ind, if_pos hind, if_pos rfl]

theorem indirectBlock_spec (h : Built s ino) (hi : Allocated sb ino i) (m : Nat) :
    Wp (Unless room) (indirectBlock (ino i)) s fun din s' => s'.nsect = s.nsect ∧
      s'.freeblock = s.freeblock + (if (ino i).ind = 0 then 1 else 0) ∧
      (s'.freeblock ≤ FSSIZE → din.ind.toNat < FSSIZE) ∧
      (din.ind.toNat < FSSIZE → Grew s s' ino i m din ∧ din.ind ≠ 0) ∧
      ((ino i).ind = 0 → image s' din.ind.toNat = zeroes) ∧
      ((ino i).ind ≠ 0 → din = ino i ∧ s' = s) := by
  have hfold : (ino i).addrs (Fin.last NDIRECT) = (ino i).ind := rfl
  rw [indirectBlock, hfold]
  by_cases h0 : (ino i).ind = 0
  · simp only [if_pos h0]
    rw [ wp_bind, wp_take, wp_pure]
    have hself : ((ino i).withAddr (Fin.last NDIRECT) (ofNat s.freeblock)).ind =
        ofNat s.freeblock := by
      unfold Dinode.ind
      rw [withAddr_addrs, if_pos rfl]
    have hnum := toNat_ofNat_block h.le
    have hmain : ((ino i).withAddr (Fin.last NDIRECT) (ofNat s.freeblock)).ind.toNat <
        FSSIZE → Grew s s.take ino i m ((ino i).withAddr (Fin.last NDIRECT) (ofNat s.freeblock)) ∧
        ((ino i).withAddr (Fin.last NDIRECT) (ofNat s.freeblock)).ind ≠ 0 := by
      rw [hself, hnum]
      intro hlt
      refine ⟨take_direct h hi hlt (Fin.last NDIRECT) h0 ?_, (h.grown hlt).ne⟩
      intro bn hbn
      exact absurd hbn (slotOf_ne_ind bn)
    refine ⟨rfl, rfl, fun hle => ?_, hmain, fun _ => ?_, fun hne => absurd h0 hne⟩
    · change ((ino i).withAddr (Fin.last NDIRECT) (ofNat s.freeblock)).ind.toNat < FSSIZE
      rw [hself, hnum]
      exact hle
    have hge := h.ge
    have hmeta := bmapstart_lt_nmeta
    change image s.take ((ino i).withAddr (Fin.last NDIRECT) (ofNat s.freeblock)).ind.toNat = zeroes
    rw [hself, hnum, image_of_ne (by omega)]
    exact h.fresh _ (le_refl _)
  · simp only [if_neg h0]
    rw [wp_pure]
    exact ⟨rfl, rfl, fun _ => (h.img.ind_mem hi h0).2.1, fun _ => ⟨.refl h i m, h0⟩,
      fun hz => absurd hz h0, fun _ => ⟨rfl, rfl⟩⟩

theorem fileBlock_spec (h : Built s ino) (hi : Allocated sb ino i) (hm : m < MAXFILE)
    (hroom : room → s.freeblock + needed (image s) (ino i) m ≤ FSSIZE) :
    Wp (Unless room) (fileBlock (ino i) m) s fun r s' => s'.nsect = s.nsect ∧
      s'.freeblock = s.freeblock + needed (image s) (ino i) m ∧ (room → r.2.toNat < FSSIZE) ∧
      (r.1.ind ≠ 0 ↔ (ino i).ind ≠ 0 ∨ NDIRECT ≤ m) ∧
      (r.2.toNat < FSSIZE →
        Grew s s' ino i m r.1 ∧ blockAt (image s') r.1 m = r.2 ∧ r.2 ≠ 0) := by
  unfold fileBlock
  by_cases hdir : m < NDIRECT
  · rw [dif_pos hdir]
    rw [needed_direct hdir] at hroom ⊢
    have hslot : ∀ bn, slotOf bn = m → bn = m := by
      intro bn hbn
      simp only [slotOf] at hbn
      split_ifs at hbn <;> omega
    by_cases h0 : (ino i).addrs ⟨m, lt_succ_of_lt hdir⟩ = 0
    · rw [if_pos h0] at hroom
      rw [if_pos h0, if_pos h0, wp_bind, wp_take, wp_pure]
      have hnum := toNat_ofNat_block h.le
      refine ⟨rfl, rfl, fun hr => ?_, ?_, fun hlt => ?_⟩
      · change (ofNat s.freeblock).toNat < FSSIZE
        rw [hnum]
        exact hroom hr
      · have hne : Fin.last NDIRECT ≠ ⟨m, lt_succ_of_lt hdir⟩ := by
          intro heq
          have := congrArg Fin.val heq
          simp only [Fin.val_last] at this
          omega
        have hind : ((ino i).withAddr ⟨m, lt_succ_of_lt hdir⟩
            (ofNat s.freeblock)).ind = (ino i).ind := by
          unfold Dinode.ind
          rw [withAddr_addrs, if_neg hne]
        change ((ino i).withAddr ⟨m, lt_succ_of_lt hdir⟩ (ofNat s.freeblock)).ind ≠ 0 ↔ _
        rw [hind]
        simp [hdir]
      · rw [hnum] at hlt
        have hgrew := take_direct h hi hlt ⟨m, lt_succ_of_lt hdir⟩ h0 hslot
        refine ⟨hgrew, ?_, (h.grown hlt).ne⟩
        rw [blockAt, dif_pos hdir]
        exact update_self ..
    · rw [if_neg h0, if_neg h0, wp_pure]
      have hat : blockAt (image s) (ino i) m = (ino i).addrs ⟨m, lt_succ_of_lt hdir⟩ := by
        rw [blockAt, dif_pos hdir]
      have hmem := h.img.blockAt_mem hi (hat ▸ h0)
      rw [hat] at hmem
      exact ⟨rfl, rfl, fun _ => hmem.2.1, by simp [hdir], fun _ => ⟨.refl h i m, hat, h0⟩⟩
  · rw [dif_neg hdir]
    refine (indirectBlock_spec h hi m).bind ?_
    rintro din s1 ⟨hns, hfb, hok, hdin, hzero, hsame⟩
    have hfold : din.addrs (Fin.last NDIRECT) = din.ind := rfl
    simp only [hfold]
    have hlow : room → din.ind.toNat < s1.nsect := by
      intro hr
      rw [hns, h.nsect]
      apply hok
      have := hroom hr
      rw [hfb]
      split_ifs with h0
      · rw [needed_of_ind_eq_zero hdir h0] at this
        omega
      · omega
    rw [wp_bind]
    apply wp_rsect hlow
    intro hsec
    have hsz : din.ind.toNat < FSSIZE := by
      rw [← h.nsect, ← hns]
      exact hsec
    obtain ⟨hgrew, hind⟩ := hdin hsz
    have hb1 := hgrew.built
    have hself : update ino i din i = din := update_self ..
    have hi1 : Allocated sb (update ino i din) i := (allocated_update sb hgrew.attrs.type i).mpr hi
    have hmeta := bmapstart_lt_nmeta
    have hge : nmeta ≤ din.ind.toNat := by
      have := (hb1.img.ind_mem hi1 (by rw [hself]; exact hind)).1
      rwa [hself, sb_nmeta] at this
    have himg : image s1 din.ind.toNat = s1.disk din.ind.toNat := image_of_ne (by omega)
    have hread : blockAt (image s1) din m = u32.get (s1.disk din.ind.toNat) (m - NDIRECT) := by
      rw [blockAt, dif_neg hdir, ← Dinode.ind, if_neg hind, himg]
    -- what is needed before the indirect block is there, and after
    have hneed : s.freeblock + needed (image s) (ino i) m = s1.freeblock +
        if u32.get (s1.disk din.ind.toNat) (m - NDIRECT) = 0 then 1 else 0 := by
      rw [hfb]
      by_cases h0 : (ino i).ind = 0
      · rw [needed_of_ind_eq_zero hdir h0, if_pos h0, ← himg, hzero h0, zeroes_get, if_pos rfl]
      · obtain ⟨hdin, hs⟩ := hsame h0
        rw [needed_indirect hdir h0, if_neg h0, ← hdin, ← hs, himg, Nat.add_zero]
    rw [hneed] at hroom ⊢
    have hiff : din.ind ≠ 0 ↔ (ino i).ind ≠ 0 ∨ NDIRECT ≤ m := iff_of_true hind (.inr (by omega))
    by_cases hz : u32.get (s1.disk din.ind.toNat) (m - NDIRECT) = 0
    · rw [if_pos hz] at hroom
      rw [if_pos hz, if_pos hz, wp_bind, wp_take, wp_bind, wp_wsect, wp_pure]
      have hnum := toNat_ofNat_block hb1.le
      refine ⟨(Nat.max_eq_left hsec).trans hns, rfl, fun hr => ?_, hiff, fun hlt => ?_⟩
      · change (ofNat s1.freeblock).toNat < FSSIZE
        rw [hnum]
        exact hroom hr
      · rw [hnum] at hlt
        have hent := take_entry hb1 hi1 hlt (by rw [hself]; exact hind) (by omega) hm
          (by rw [hself]; exact hz) rfl
        rw [hself] at hent
        exact ⟨hgrew.trans hent.1, hent.2, (hb1.grown hlt).ne⟩
    · rw [if_neg hz, if_neg hz, wp_pure]
      have hne : blockAt (image s1) (update ino i din i) m ≠ 0 := by
        rw [hself, hread]
        exact hz
      have hmem := hb1.img.blockAt_mem hi1 hne
      rw [hself, hread] at hmem
      exact ⟨hns, rfl, fun _ => hmem.2.1, hiff, fun _ => ⟨hgrew, hread, hz⟩⟩

end Xv6.Mkfs
