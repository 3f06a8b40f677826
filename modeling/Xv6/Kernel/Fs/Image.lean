import Xv6.Kernel.Fs.BlockMap

namespace Xv6.Fs

open ByteCodec Ownership Function

variable {sb : Superblock} {d d' : Disk} {ino : Nat → Dinode} {i : Nat} {ip' : Dinode}

theorem allocated_update (sb : Superblock) (htype : ip'.type = (ino i).type) (j : Nat) :
    Allocated sb (update ino i ip') j ↔ Allocated sb ino j := by
  unfold Allocated
  by_cases hj : j = i
  · subst hj
    rw [update_self, htype]
  · rw [update_of_ne hj]

theorem files_update :
    files sb d (update ino i ip') = update (files sb d ino) i
      (if i < sb.ninodes ∧ ip'.type ≠ 0 then some (view d ip') else none) := by
  funext j
  by_cases hj : j = i
  · subst hj
    unfold files Allocated
    simp only [update_self]
  · have halloc : Allocated sb (update ino i ip') j ↔ Allocated sb ino j := by
      unfold Allocated
      rw [update_of_ne hj]
    rw [update_of_ne hj]
    simp only [files, halloc, update_of_ne hj]

/-- `d'` is `d` with the data block `r` allocated and zeroed. -/
structure Grown (sb : Superblock) (d d' : Disk) (r : UInt32) : Prop where
  ne : r ≠ 0
  ge : sb.nmeta ≤ r.toNat
  lt : r.toNat < sb.size
  free : used sb d r.toNat = false
  inodes : ∀ b, b < sb.bmapstart → d' b = d b
  bits : ∀ c, c < sb.size → used sb d' c = (decide (c = r.toNat) || used sb d c)
  zero : d' r.toNat = fun _ => 0
  data : ∀ b, sb.nmeta ≤ b → b ≠ r.toNat → d' b = d b

variable {r : UInt32}

theorem Grown.ne_of_used (g : Grown sb d d' r) {b : Nat} (h : used sb d b) :
    b ≠ r.toNat := by
  intro hb
  rw [hb, g.free] at h
  cases h

theorem Grown.slot_eq (g : Grown sb d d' r) (h : Img sb d ino) {j : Nat}
    (hj : Allocated sb ino j) (k : Nat) : slot d' (ino j) k = slot d (ino j) k := by
  apply slot_congr rfl
  intro hind
  obtain ⟨hge, -, hused⟩ := h.ind_mem hj hind
  exact g.data _ hge (g.ne_of_used hused)

/-- A fresh block put at the empty place `k` of inode `i`. -/
structure Assigned (sb : Superblock) (d d' : Disk) (ino : Nat → Dinode) (i : Nat) (ip' : Dinode)
    (k : Nat) (r : UInt32) : Prop where
  alloc : Allocated sb ino i
  lt : k < NSLOT
  empty : slot d (ino i) k = 0
  ne : r ≠ 0
  fresh : r.toNat ∉ dataInUse sb d
  ge : sb.nmeta ≤ r.toNat
  lt_size : r.toNat < sb.size
  bits : ∀ c, c < sb.size → used sb d' c = (decide (c = r.toNat) || used sb d c)
  zero : d' r.toNat = fun _ => 0
  attrs : SameAttrs ip' (ino i)
  self : ∀ l, slot d' ip' l = if l = k then r else slot d (ino i) l
  other : ∀ j, j ≠ i → Allocated sb ino j → ∀ l, slot d' (ino j) l = slot d (ino j) l
  data : ∀ j, Allocated sb ino j → ∀ bn, blockAt d (ino j) bn ≠ 0 →
    d' (blockAt d (ino j) bn).toNat = d (blockAt d (ino j) bn).toNat

namespace Assigned

variable {k : Nat} {r : UInt32}

section

variable (a : Assigned sb d d' ino i ip' k r)
include a

theorem place_eq :
    place sb d' (update ino i ip') =
      update (place sb d ino) (i, k) (some r.toNat) := by
  have halloc := allocated_update sb a.attrs.type
  funext ⟨j, l⟩
  by_cases hj : j = i
  · subst hj
    by_cases hl : l = k
    · subst hl
      rw [update_self, place_eq_some]
      simp only [update_self, a.self, if_true]
      exact ⟨(halloc j).mpr a.alloc, a.ne, trivial⟩
    · have hne : (j, l) ≠ (j, k) := fun h => hl (congrArg Prod.snd h)
      rw [update_of_ne hne]
      simp only [place, halloc, update_self, a.self, hl, if_false]
  · have hne : (j, l) ≠ (i, k) := fun h => hj (congrArg Prod.fst h)
    rw [update_of_ne hne]
    by_cases hal : Allocated sb ino j
    · simp only [place, halloc, update_of_ne hj, a.other j hj hal]
    · simp only [place, halloc, hal, false_and, if_false]

theorem blockAt_of_ne {j bn : Nat} (hj : Allocated sb ino j) (h : blockAt d (ino j) bn ≠ 0) :
    blockAt d' (update ino i ip' j) bn = blockAt d (ino j) bn := by
  rw [blockAt_eq_slot] at h
  rw [blockAt_eq_slot, blockAt_eq_slot]
  by_cases hji : j = i
  · subst hji
    rw [update_self, a.self, if_neg]
    intro hk
    rw [hk, a.empty] at h
    exact h rfl
  · rw [update_of_ne hji, a.other j hji hj]

theorem img (h : Img sb d ino) : Img sb d' (update ino i ip') := by
  have halloc := allocated_update sb a.attrs.type
  have hsize : ∀ j, (update ino i ip' j).size = (ino j).size := by
    intro j
    by_cases hj : j = i
    · subst hj
      rw [update_self, a.attrs.size]
    · rw [update_of_ne hj]
  constructor
  · apply h.excl.acquire (p := (i, k)) (a := r.toNat) _ a.fresh a.place_eq
    · intro b
      simp only [dataInUse, Set.mem_ofPred_eq]
      constructor
      · rintro ⟨h1, h2, h3⟩
        rw [a.bits b h2, Bool.or_eq_true, decide_eq_true_eq] at h3
        exact h3.imp id fun h3 => ⟨h1, h2, h3⟩
      intro hb
      cases hb with
      | inl hb =>
        subst hb
        exact ⟨a.ge, a.lt_size, by rw [a.bits _ a.lt_size]; simp⟩
      | inr hb => exact ⟨hb.1, hb.2.1, by rw [a.bits b hb.2.1, hb.2.2]; simp⟩
    · simp [place, a.empty]
  · intro b hb
    rw [a.bits b (hb.trans_le sb.nmeta_le), h.metaUsed b hb, Bool.or_true]
  · intro j hj
    rw [hsize]
    exact h.bound j ((halloc j).mp hj)
  · intro j hj bn hbn
    rw [hsize] at hbn
    have hne := h.noHole j ((halloc j).mp hj) bn hbn
    rw [a.blockAt_of_ne ((halloc j).mp hj) hne]
    exact hne

theorem files_eq : files sb d' (update ino i ip') = files sb d ino := by
  have halloc := allocated_update sb a.attrs.type
  have hattrs : ∀ j, SameAttrs (update ino i ip' j) (ino j) := by
    intro j
    by_cases hj : j = i
    · subst hj
      rw [update_self]
      exact a.attrs
    · rw [update_of_ne hj]
      exact .refl _
  funext j
  unfold files
  simp only [halloc]
  split_ifs with hj
  · congr 1
    apply view_congr (hattrs j)
    intro bn
    simp only [view]
    by_cases h0 : blockAt d (ino j) bn = 0
    · rw [if_pos h0]
      split_ifs with h1
      · rfl
      -- the only address that is new is that of the zeroed block
      have hr : blockAt d' (update ino i ip' j) bn = r := by
        rw [blockAt_eq_slot] at h0 h1 ⊢
        by_cases hji : j = i
        · subst hji
          rw [update_self, a.self] at h1 ⊢
          split_ifs at h1 ⊢
          · rfl
          · exact absurd h0 h1
        · rw [update_of_ne hji, a.other j hji hj, h0] at h1
          exact absurd rfl h1
      rw [hr, a.zero]
    · rw [a.blockAt_of_ne hj h0, if_neg h0, if_neg h0, a.data j hj bn h0]
  · rfl

end

end Assigned

def Dinode.withAddr (ip : Dinode) (k : Fin (NDIRECT + 1)) (r : UInt32) : Dinode :=
  { ip with addrs := update ip.addrs k r }

theorem withAddr_attrs (ip : Dinode) (k : Fin (NDIRECT + 1)) (r : UInt32) :
    SameAttrs (ip.withAddr k r) ip := ⟨rfl, rfl, rfl, rfl, rfl⟩

theorem withAddr_addrs (ip : Dinode) (k l : Fin (NDIRECT + 1)) (r : UInt32) :
    (ip.withAddr k r).addrs l = if l = k then r else ip.addrs l := by
  unfold Dinode.withAddr
  simp only [update_apply]

section

variable (h : Img sb d ino) (hi : Allocated sb ino i) (g : Grown sb d d' r)
include h hi g

theorem assigned_direct (k : Fin (NDIRECT + 1)) (hk : (ino i).addrs k = 0) :
    Assigned sb d d' ino i ((ino i).withAddr k r) k.val r where
  alloc := hi
  lt := Nat.lt_of_lt_of_le k.isLt (Nat.le_add_right _ _)
  empty := by rw [slot_direct, hk]
  ne := g.ne
  fresh := fun hr => g.ne_of_used hr.2.2 rfl
  ge := g.ge
  lt_size := g.lt
  bits := g.bits
  zero := g.zero
  attrs := withAddr_attrs ..
  other := fun j _ hj => g.slot_eq h hj
  data := fun j hj bn hbn => g.data _ (h.blockAt_mem hj hbn).1 (g.ne_of_used (h.blockAt_mem hj hbn).2.2)
  self := by
    intro l
    by_cases hl : l < NDIRECT + 1
    · have he := slot_direct d (ino i) ⟨l, hl⟩
      have he' := slot_direct d' ((ino i).withAddr k r) ⟨l, hl⟩
      simp only [withAddr_addrs, Fin.ext_iff] at he he'
      rw [he, he']
    have hlk : l ≠ k.val := fun hh => hl (hh ▸ k.isLt)
    have hind : ((ino i).withAddr k r).ind =
        if Fin.last NDIRECT = k then r else (ino i).ind := withAddr_addrs ..
    rw [if_neg hlk]
    by_cases hk12 : Fin.last NDIRECT = k
    · -- the new indirect block holds no entry, as before
      have hold : (ino i).ind = 0 := by
        rw [← hk12] at hk
        exact hk
      rw [if_pos hk12] at hind
      rw [slot_entry _ _ (by omega) (by rw [hind]; exact g.ne), hind, g.zero]
      unfold slot
      rw [dif_neg hl, if_pos hold]
      simp only [Codec.get, dite_eq_ite, ite_self]
      rfl
    · rw [if_neg hk12] at hind
      rw [← g.slot_eq h hi]
      unfold slot
      rw [dif_neg hl, dif_neg hl, hind]

theorem assigned_entry (hind : (ino i).ind ≠ 0) {n : Nat} (hn : n < NINDIRECT)
    (hk : u32.get (d (ino i).ind.toNat) n = 0) :
    Assigned sb d (update d' (ino i).ind.toNat (u32.put (d (ino i).ind.toNat) n r)) ino i
      (ino i) (NDIRECT + 1 + n) r := by
  obtain ⟨hge, hlt, hused⟩ := h.ind_mem hi hind
  have hr := g.ne_of_used hused
  have hout : ∀ j l, Allocated sb ino j → j ≠ i ∨ l ≠ NDIRECT → slot d (ino j) l ≠ 0 →
      (slot d (ino j) l).toNat ≠ (ino i).ind.toNat := by
    intro j l hj hne h0 he
    have he' : slot d (ino j) l = slot d (ino i) NDIRECT := by
      rw [slot_ind]
      exact UInt32.toNat_inj.mp he
    have := h.slot_inj hi hj (by rw [slot_ind]; exact hind) he'
    omega
  exact
    { alloc := hi
      lt := by unfold NSLOT; omega
      empty := by rw [slot_entry d _ (by omega) hind, Nat.add_sub_cancel_left, hk]
      ne := g.ne
      fresh := fun hr => g.ne_of_used hr.2.2 rfl
      ge := g.ge
      lt_size := g.lt
      bits := by
        intro c hc
        rw [used_congr sb d', g.bits c hc]
        have hcb := sb.bblock_lt hc
        exact update_of_ne (by omega) _ _
      zero := by rw [update_of_ne (Ne.symm hr), g.zero]
      attrs := .refl _
      other := by
        intro j hj hja l
        rw [← g.slot_eq h hja]
        apply slot_congr rfl
        intro h0
        have := hout j NDIRECT hja (.inl hj)
        rw [slot_ind] at this
        exact update_of_ne (this h0) _ _
      data := by
        intro j hj bn hbn
        obtain ⟨h1, -, h2⟩ := h.blockAt_mem hj hbn
        have hne : (blockAt d (ino j) bn).toNat ≠ (ino i).ind.toNat := by
          rw [blockAt_eq_slot] at hbn ⊢
          exact hout j _ hj (.inr (slotOf_ne_ind bn)) hbn
        rw [update_of_ne hne, g.data _ h1 (g.ne_of_used h2)]
      self := by
        intro l
        by_cases hl : l < NDIRECT + 1
        · rw [if_neg (by omega)]
          exact (slot_direct _ (ino i) ⟨l, hl⟩).trans (slot_direct d (ino i) ⟨l, hl⟩).symm
        rw [slot_entry _ _ (by omega) hind, slot_entry _ _ (by omega) hind, update_self]
        by_cases hln : l = NDIRECT + 1 + n
        · subst hln
          rw [if_pos rfl, Nat.add_sub_cancel_left]
          apply Codec.get_put_self
          simp only [NINDIRECT, BSIZE] at *
          omega
        · rw [if_neg hln]
          apply Codec.get_put_of_ne
          omega }

end

namespace Img

variable (h : Img sb d ino)
include h

/-- Writing a data block of a file changes that block of that file and nothing else. -/
theorem write (hi : Allocated sb ino i) {bn : Nat} (hbn : blockAt d (ino i) bn ≠ 0) (x : Block)
    (hd : d' = update d (blockAt d (ino i) bn).toNat x) :
    Img sb d' ino ∧ (∀ j, Allocated sb ino j → ∀ c, blockAt d' (ino j) c = blockAt d (ino j) c) ∧
      files sb d' ino = update (files sb d ino) i
        (some { view d (ino i) with data := update (view d (ino i)).data bn x }) := by
  have hne : ∀ j k, Allocated sb ino j → j ≠ i ∨ k ≠ slotOf bn → slot d (ino j) k ≠ 0 →
      d' (slot d (ino j) k).toNat = d (slot d (ino j) k).toNat := by
    intro j k hj hjk h0
    rw [hd, update_of_ne]
    intro he
    rw [blockAt_eq_slot] at he hbn
    have := h.slot_inj hi hj hbn (UInt32.toNat_inj.mp he)
    omega
  have hslot : ∀ j, Allocated sb ino j → ∀ k, slot d' (ino j) k = slot d (ino j) k := by
    intro j hj
    apply slot_congr rfl
    have := hne j NDIRECT hj (.inr (slotOf_ne_ind bn).symm)
    rwa [slot_ind] at this
  have hblock : ∀ j, Allocated sb ino j → ∀ c, blockAt d' (ino j) c = blockAt d (ino j) c := by
    intro j hj c
    rw [blockAt_eq_slot, blockAt_eq_slot, hslot j hj]
  refine ⟨?_, hblock, ?_⟩
  · apply h.congr (fun _ => Iff.rfl) (fun _ _ => rfl) hslot
    intro b hb
    apply used_congr
    have h1 := sb.bblock_lt hb
    have h2 := (h.blockAt_mem hi hbn).1
    rw [hd, update_of_ne (by omega)]
  funext j
  by_cases hj : j = i
  · subst hj
    rw [update_self, files_of_allocated hi]
    congr 1
    ext1
    · rfl
    · rfl
    · rfl
    · rfl
    · rfl
    funext c
    simp only [view, hblock j hi c]
    by_cases hc : c = bn
    · subst hc
      rw [update_self, if_neg hbn, hd, update_self]
    · rw [update_of_ne hc]
      split_ifs with h0
      · rfl
      · rw [blockAt_eq_slot] at h0 ⊢
        exact hne j _ hi (.inr fun he => hc (slotOf_inj he)) h0
  · rw [update_of_ne hj]
    unfold files
    split_ifs with hal
    · congr 1
      apply view_congr (.refl _)
      intro c
      simp only [view, hblock j hal c]
      split_ifs with h0
      · rfl
      · rw [blockAt_eq_slot] at h0 ⊢
        exact hne j _ hal (.inl hj) h0
    · rfl

theorem setAttrs (hi : Allocated sb ino i) (htype : ip'.type = (ino i).type)
    (haddrs : ip'.addrs = (ino i).addrs) (hbound : ip'.size.toNat ≤ MAXFILE * BSIZE)
    (hhole : ∀ bn, bn * BSIZE < ip'.size.toNat → blockAt d (ino i) bn ≠ 0) :
    Img sb d (update ino i ip') ∧ files sb d (update ino i ip') =
        update (files sb d ino) i (some (view d ip')) := by
  have halloc := allocated_update sb htype
  have hslot : ∀ j k, slot d (update ino i ip' j) k = slot d (ino j) k := by
    intro j
    by_cases hj : j = i
    · subst hj
      rw [update_self]
      exact slot_congr haddrs fun _ => rfl
    · rw [update_of_ne hj]
      exact fun _ => rfl
  constructor
  · constructor
    · apply h.excl.congr
      · rintro ⟨j, k⟩
        simp only [place, halloc, hslot]
      · exact fun _ => Iff.rfl
    · exact h.metaUsed
    · intro j hj
      by_cases hji : j = i
      · subst hji
        rw [update_self]
        exact hbound
      · rw [update_of_ne hji]
        exact h.bound j ((halloc j).mp hj)
    intro j hj bn hbn
    rw [blockAt_eq_slot, hslot, ← blockAt_eq_slot]
    by_cases hji : j = i
    · subst hji
      rw [update_self] at hbn
      exact hhole bn hbn
    · rw [update_of_ne hji] at hbn
      exact h.noHole j ((halloc j).mp hj) bn hbn
  · rw [files_update, if_pos]
    rw [htype]
    exact hi

theorem clear (hmeta : ∀ b, sb.nmeta ≤ b → d' b = d b) (hempty : ∀ k, slot d' ip' k = 0)
    (hsize : ip'.size = 0)
    (hused : ∀ b, b < sb.size → (used sb d' b = true ↔
      used sb d b = true ∧ ∀ k, place sb d ino (i, k) ≠ some b)) :
    Img sb d' (update ino i ip') ∧ files sb d' (update ino i ip') = update (files sb d ino) i
        (if i < sb.ninodes ∧ ip'.type ≠ 0 then some (view d' ip') else none) := by
  have halloc : ∀ j, j ≠ i → (Allocated sb (update ino i ip') j ↔ Allocated sb ino j) := by
    intro j hj
    unfold Allocated
    rw [update_of_ne hj]
  have hslot : ∀ j, Allocated sb ino j → ∀ k, slot d' (ino j) k = slot d (ino j) k := by
    intro j hj
    exact slot_congr rfl fun h0 => hmeta _ (h.ind_mem hj h0).1
  constructor
  · constructor
    · apply h.excl.release {p | p.1 = i}
      · rintro ⟨j, k⟩ hj
        cases hj
        simp [place, hempty]
      · rintro ⟨j, k⟩ hj
        have hj : j ≠ i := hj
        by_cases hal : Allocated sb ino j
        · simp only [place, halloc j hj, update_of_ne hj, hslot j hal]
        · simp only [place, halloc j hj, hal, false_and, if_false]
      intro b
      constructor
      · rintro ⟨h1, h2, h3⟩
        obtain ⟨h3, h4⟩ := (hused b h2).mp h3
        refine ⟨⟨h1, h2, h3⟩, ?_⟩
        rintro ⟨j, k⟩ hj
        cases hj
        exact h4 k
      · rintro ⟨⟨h1, h2, h3⟩, h4⟩
        exact ⟨h1, h2, (hused b h2).mpr ⟨h3, fun k => h4 (i, k) rfl⟩⟩
    · intro b hb
      apply (hused b (hb.trans_le sb.nmeta_le)).mpr
      refine ⟨h.metaUsed b hb, fun k hk => ?_⟩
      exact absurd (h.excl.mem hk).1 (not_le.mpr hb)
    · intro j hj
      by_cases hji : j = i
      · subst hji
        rw [update_self, hsize]
        exact Nat.zero_le _
      · rw [update_of_ne hji]
        exact h.bound j ((halloc j hji).mp hj)
    · intro j hj bn hbn
      by_cases hji : j = i
      · subst hji
        rw [update_self, hsize] at hbn
        exact absurd hbn (Nat.not_lt_zero _)
      · have hal := (halloc j hji).mp hj
        rw [update_of_ne hji] at hbn ⊢
        rw [blockAt_eq_slot, hslot j hal, ← blockAt_eq_slot]
        exact h.noHole j hal bn hbn
  · rw [files_update]
    funext j
    by_cases hji : j = i
    · subst hji
      rw [update_self, update_self]
    rw [update_of_ne hji, update_of_ne hji]
    unfold files
    split_ifs with hal
    · congr 1
      apply view_congr (.refl _)
      intro c
      simp only [view, blockAt_eq_slot, hslot j hal]
      split_ifs with h0
      · rfl
      · exact hmeta _ (h.slot_mem hal h0).1
    · rfl

theorem replace (hnone : ∀ k, place sb d ino (i, k) = none) (hempty : ∀ k, slot d ip' k = 0)
    (hsize : ip'.size = 0) :
    Img sb d (update ino i ip') ∧ files sb d (update ino i ip') = update (files sb d ino) i
        (if i < sb.ninodes ∧ ip'.type ≠ 0 then some (view d ip') else none) := by
  apply h.clear (fun _ _ => rfl) hempty hsize
  intro b _
  simp [hnone]

end Img

end Xv6.Fs
