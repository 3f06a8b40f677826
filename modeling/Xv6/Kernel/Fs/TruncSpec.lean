import Xv6.Kernel.Fs.BlockSpec

namespace Xv6.Fs

open ByteCodec Hoare Function List

/-- The free map with the blocks in `bs` cleared. -/
def freeAll (sb : Superblock) (d : Disk) (bs : List Nat) : Disk := bs.foldl (markFree sb) d

def blocksOf (addrs : List UInt32) : List Nat := (addrs.filter (· ≠ 0)).map UInt32.toNat

variable {bs : List Nat}

section Lists

variable {sb : Superblock} {d : Disk}

theorem freeAll_append (bs cs : List Nat) :
    freeAll sb d (bs ++ cs) = freeAll sb (freeAll sb d bs) cs := foldl_append

theorem used_freeAll (bs : List Nat) (c : Nat) :
    used sb (freeAll sb d bs) c = true ↔ used sb d c = true ∧ c ∉ bs := by
  induction bs generalizing d with
  | nil => simp [freeAll]
  | cons b bs ih =>
    rw [show freeAll sb d (b :: bs) = freeAll sb (markFree sb d b) bs from rfl, ih, used_markFree]
    simp only [Bool.and_eq_true, Bool.not_eq_true', decide_eq_false_iff_not, mem_cons, not_or]
    tauto

theorem freeAll_of_lt (bs : List Nat) {c : Nat} (hc : c < sb.bmapstart) :
    freeAll sb d bs c = d c := by
  induction bs generalizing d with
  | nil => rfl
  | cons b bs ih =>
    have := sb.bblock_ge b
    exact ih.trans (update_of_ne (by omega) _ _)

theorem freeAll_of_ge (hbs : ∀ b ∈ bs, b < sb.size) {c : Nat}
    (hc : sb.nmeta ≤ c) : freeAll sb d bs c = d c := by
  induction bs generalizing d with
  | nil => rfl
  | cons b bs ih =>
    have hb := sb.bblock_lt (hbs b (mem_cons_self ..))
    have := ih (d := markFree sb d b) fun b hb => hbs b (mem_cons_of_mem _ hb)
    exact this.trans (update_of_ne (by omega) _ _)

theorem blocksOf_cons (a : UInt32) (as : List UInt32) :
    blocksOf (a :: as) = if a = 0 then blocksOf as else a.toNat :: blocksOf as := by
  unfold blocksOf
  by_cases ha : a = 0 <;> simp [ha]

theorem blocksOf_append (as bs : List UInt32) :
    blocksOf (as ++ bs) = blocksOf as ++ blocksOf bs := by
  unfold blocksOf
  rw [filter_append, map_append]

theorem mem_blocksOf {as : List UInt32} {b : Nat} :
    b ∈ blocksOf as ↔ ∃ a ∈ as, a ≠ 0 ∧ a.toNat = b := by
  simp [blocksOf, and_assoc]

theorem blocksOf_nodup {ι : Type} {ks : List ι} {f : ι → UInt32} (hks : ks.Nodup)
    (hinj : ∀ k ∈ ks, ∀ l ∈ ks, f k ≠ 0 → f l = f k → l = k) : (blocksOf (ks.map f)).Nodup := by
  induction ks with
  | nil => exact nodup_nil
  | cons k ks ih =>
    obtain ⟨hk, hks⟩ := nodup_cons.mp hks
    have ih := ih hks fun k hk l hl =>
      hinj k (mem_cons_of_mem _ hk) l (mem_cons_of_mem _ hl)
    rw [map_cons, blocksOf_cons]
    split_ifs with h0
    · exact ih
    refine nodup_cons.mpr ⟨?_, ih⟩
    intro hmem
    obtain ⟨a, ha, -, heq⟩ := mem_blocksOf.mp hmem
    obtain ⟨l, hl, rfl⟩ := mem_map.mp ha
    have := hinj k (mem_cons_self ..) l (mem_cons_of_mem _ hl) h0 (UInt32.toNat_inj.mp heq)
    exact hk (this ▸ hl)

end Lists

variable {sb : Superblock} {al : Known} {s : State} {e : Fin NINODE}

/-- The blocks in `bs` can be freed one after the other. -/
def Freeable (sb : Superblock) (d : Disk) (bs : List Nat) : Prop :=
  bs.Nodup ∧ ∀ b ∈ bs, used sb d b = true

theorem Freeable.tail {d : Disk} {b : Nat} (h : Freeable sb d (b :: bs)) :
    Freeable sb (markFree sb d b) bs := by
  obtain ⟨hb, hbs⟩ := nodup_cons.mp h.1
  refine ⟨hbs, fun c hc => ?_⟩
  rw [used_markFree, h.2 c (mem_cons_of_mem _ hc), Bool.and_true, Bool.not_eq_true',
    decide_eq_false_iff_not]
  intro hcb
  exact hb (hcb ▸ hc)

theorem Freeable.append {d : Disk} {cs : List Nat} (h : Freeable sb d (bs ++ cs)) :
    Freeable sb d bs ∧ Freeable sb (freeAll sb d bs) cs := by
  obtain ⟨hbs, hcs, hdisj⟩ := nodup_append.mp h.1
  refine ⟨⟨hbs, fun b hb => h.2 b (mem_append_left _ hb)⟩, hcs, fun c hc => ?_⟩
  rw [used_freeAll]
  exact ⟨h.2 c (mem_append_right _ hc), fun hb => hdisj c hb c hc rfl⟩

def Dinode.zeroAddrs (ip : Dinode) (ks : List (Fin (NDIRECT + 1))) : Dinode :=
  { ip with addrs := fun k => if k ∈ ks then 0 else ip.addrs k }

theorem zeroAddrs_cons_zero {ip : Dinode} {k : Fin (NDIRECT + 1)} (h : ip.addrs k = 0)
    (ks : List (Fin (NDIRECT + 1))) : ip.zeroAddrs (k :: ks) = ip.zeroAddrs ks := by
  simp only [Dinode.zeroAddrs, Dinode.mk.injEq, true_and]
  funext l
  by_cases hl : l = k
  · subst hl
    simp [h]
  · simp [hl]

theorem zeroAddrs_cons (ip : Dinode) (k : Fin (NDIRECT + 1)) (ks : List (Fin (NDIRECT + 1))) :
    (ip.withAddr k 0).zeroAddrs ks = ip.zeroAddrs (k :: ks) := by
  simp only [Dinode.zeroAddrs, Dinode.withAddr, Dinode.mk.injEq, true_and]
  funext l
  by_cases hl : l = k
  · subst hl
    simp
  · simp [hl]

theorem itruncDirect_spec (ks : List (Fin (NDIRECT + 1))) (hks : ks.Nodup) (ho : 0 < s.outstanding)
    (hfree : Freeable sb s.disk (blocksOf (ks.map (s.inode e).din.addrs))) :
    Wp (Allowed al) (itruncDirect sb e ks) s fun _ s' =>
      s'.disk = freeAll sb s.disk (blocksOf (ks.map (s.inode e).din.addrs)) ∧
      s'.inode = update s.inode e
        { s.inode e with din := (s.inode e).din.zeroAddrs ks } ∧ Frame s s' := by
  induction ks generalizing s with
  | nil =>
    refine ⟨rfl, ?_, .refl s⟩
    rw [eq_comm, update_eq_self_iff]
    simp [Dinode.zeroAddrs]
  | cons k ks ih =>
    obtain ⟨hk, hks⟩ := nodup_cons.mp hks
    rw [map_cons, blocksOf_cons] at hfree ⊢
    simp only [itruncDirect, wp_bind, wp_getInode, wp_ite, wp_setAddr]
    split_ifs at hfree ⊢ with h0
    · refine (ih hks ho hfree).mono ?_
      rintro _ s' ⟨hd, hi, hf⟩
      refine ⟨hd, ?_, hf⟩
      rw [hi, zeroAddrs_cons_zero h0]
    refine (bfree_spec ho (hfree.2 _ (mem_cons_self ..))).mono ?_
    rintro _ s1 ⟨hd1, hi1, hf1⟩
    have hkeep : ks.map ((s1.inode e).din.withAddr k 0).addrs = ks.map (s.inode e).din.addrs := by
      apply map_congr_left
      intro l hl
      rw [hi1, withAddr_addrs, if_neg]
      intro hlk
      exact hk (hlk ▸ hl)
    have hs := ih (s := s1.setIp e { s1.inode e with din := (s1.inode e).din.withAddr k 0 }) hks
      (by rw [setIp_outstanding, hf1.outstanding]; exact ho)
    simp only [setIp_inode_self, hkeep, setIp_disk, hd1] at hs
    refine (hs hfree.tail).mono ?_
    rintro _ s' ⟨hd, hi, hf⟩
    refine ⟨hd, ?_, hf1.trans (.trans (.setIp ..) hf)⟩
    rw [hi, zeroAddrs_cons, State.setIp, update_idem, hi1]

theorem itruncEntries_spec (a : Block) (js : List Nat) (ho : 0 < s.outstanding)
    (hfree : Freeable sb s.disk (blocksOf (js.map (u32.get a)))) :
    Wp (Allowed al) (itruncEntries sb a js) s fun _ s' =>
      s'.disk = freeAll sb s.disk (blocksOf (js.map (u32.get a))) ∧ s'.inode = s.inode ∧
        Frame s s' := by
  induction js generalizing s with
  | nil => exact ⟨rfl, rfl, .refl s⟩
  | cons j js ih =>
    rw [map_cons, blocksOf_cons] at hfree ⊢
    simp only [itruncEntries, wp_bind, wp_ite]
    split_ifs at hfree ⊢ with h0
    · exact ih ho hfree
    refine (bfree_spec ho (hfree.2 _ (mem_cons_self ..))).mono ?_
    rintro _ s1 ⟨hd1, hi1, hf1⟩
    have hs := ih (s := s1) (hf1.pos ho)
    rw [hd1] at hs
    refine (hs hfree.tail).mono ?_
    rintro _ s' ⟨hd, hi, hf⟩
    exact ⟨hd, hi.trans hi1, hf1.trans hf⟩

/-- The places `itrunc` looks at in its second part, in order. -/
def indirectSlots : List Nat :=
  (List.range NINDIRECT).map (NDIRECT + 1 + ·) ++ [NDIRECT]

theorem itruncIndirect_spec (ho : 0 < s.outstanding)
    (hfree : Freeable sb s.disk (blocksOf (indirectSlots.map (slot s.disk (s.inode e).din)))) :
    Wp (Allowed al) (itruncIndirect sb e) s fun _ s' =>
      s'.disk = freeAll sb s.disk (blocksOf (indirectSlots.map (slot s.disk (s.inode e).din))) ∧
      s'.inode = update s.inode e
        { s.inode e with din := (s.inode e).din.withAddr (Fin.last NDIRECT) 0 } ∧ Frame s s' := by
  simp only [itruncIndirect, wp_bind, wp_getInode, wp_ite, wp_pure, wp_bread, wp_setAddr]
  have hsplit : indirectSlots.map (slot s.disk (s.inode e).din) =
      (range NINDIRECT).map (fun j => slot s.disk (s.inode e).din (NDIRECT + 1 + j)) ++
        [(s.inode e).din.ind] := by
    rw [indirectSlots, map_append, map_map, map_singleton, slot_ind]
    rfl
  rw [hsplit, blocksOf_append] at hfree ⊢
  split_ifs with h0
  · have hnil : blocksOf ((range NINDIRECT).map
        fun j => slot s.disk (s.inode e).din (NDIRECT + 1 + j)) = [] := by
      apply eq_nil_iff_forall_not_mem.mpr
      intro b hb
      obtain ⟨a, ha, hne, -⟩ := mem_blocksOf.mp hb
      obtain ⟨j, -, rfl⟩ := mem_map.mp ha
      apply hne
      rw [slot, dif_neg (by omega), if_pos (by exact h0)]
    have hind : (s.inode e).din.ind = 0 := h0
    rw [hnil, hind, nil_append, blocksOf_cons, if_pos rfl]
    refine ⟨rfl, ?_, .refl s⟩
    rw [eq_comm, update_eq_self_iff, Dinode.withAddr, ← h0, update_eq_self]
  · have hentries : (range NINDIRECT).map (fun j => slot s.disk (s.inode e).din (NDIRECT + 1 + j)) =
          (range NINDIRECT).map (u32.get (s.disk (s.inode e).din.ind.toNat)) := by
      apply map_congr_left
      intro j _
      rw [slot_entry _ _ (by omega) h0, Nat.add_sub_cancel_left]
    have hone : blocksOf [(s.inode e).din.ind] = [(s.inode e).din.ind.toNat] := by
      have hind : (s.inode e).din.ind ≠ 0 := h0
      rw [blocksOf_cons, if_neg hind]
      rfl
    rw [hentries, hone] at hfree ⊢
    obtain ⟨hfree1, hfree2⟩ := hfree.append
    refine (itruncEntries_spec _ _ ho hfree1).mono ?_
    rintro _ s1 ⟨hd1, hi1, hf1⟩
    have hused : used sb s1.disk (s.inode e).din.ind.toNat = true := by
      rw [hd1]
      exact hfree2.2 _ (mem_singleton_self _)
    refine (bfree_spec (hf1.pos ho) hused).mono ?_
    rintro _ s2 ⟨hd2, hi2, hf2⟩
    refine ⟨?_, ?_, (hf1.trans hf2).trans (.setIp ..)⟩
    · rw [setIp_disk, hd2, hd1, freeAll_append]
      rfl
    · rw [State.setIp, hi2, hi1]

def Dinode.empty (ip : Dinode) : Dinode := { ip with size := 0, addrs := fun _ => 0 }

def View.empty (v : View) : View := { v with size := 0, data := fun _ _ => 0 }

theorem slot_empty (d : Disk) (ip : Dinode) (k : Nat) : slot d ip.empty k = 0 := by
  unfold slot
  split_ifs
  · rfl
  · rfl
  · contradiction

theorem view_empty (d d' : Disk) (ip : Dinode) : view d' ip.empty = (view d ip).empty := by
  ext1
  · rfl
  · rfl
  · rfl
  · rfl
  · rfl
  · funext bn
    simp only [view, blockAt_eq_slot, slot_empty, if_true]
    rfl

variable {ino : Nat → Dinode} {i : Nat}

/-- The places of an inode in the order `itrunc` frees them. -/
def slotList : List Nat := List.range NDIRECT ++ indirectSlots

theorem slotList_nodup : slotList.Nodup := by
  rw [slotList, indirectSlots, nodup_append, nodup_append]
  refine ⟨nodup_range, ⟨?_, nodup_singleton _, ?_⟩, ?_⟩
  · exact nodup_range.map fun a b h => by simpa using h
  · intro a ha b hb
    obtain ⟨j, -, rfl⟩ := mem_map.mp ha
    rw [mem_singleton.mp hb]
    omega
  intro a ha b hb
  have := mem_range.mp ha
  cases mem_append.mp hb with
  | inl hb =>
    obtain ⟨j, -, rfl⟩ := mem_map.mp hb
    omega
  | inr hb =>
    rw [mem_singleton.mp hb]
    omega

theorem mem_slotList {k : Nat} (h : k < NSLOT) : k ∈ slotList := by
  unfold NSLOT at h
  rw [slotList, indirectSlots]
  simp only [mem_append, mem_range, mem_map, mem_singleton]
  by_cases h1 : k < NDIRECT
  · exact .inl h1
  · by_cases h2 : k = NDIRECT
    · exact .inr (.inr h2)
    · exact .inr (.inl ⟨k - (NDIRECT + 1), by omega, by omega⟩)

theorem directSlots_map (d : Disk) (ip : Dinode) :
    directSlots.map ip.addrs = (range NDIRECT).map (slot d ip) := by
  rw [directSlots, map_map, ← map_coe_finRange_eq_range, map_map]
  apply map_congr_left
  intro k _
  exact (slot_direct d ip k.castSucc).symm

theorem mem_blocksOf_slotList (hi : Allocated sb ino i) (d : Disk) (b : Nat) :
    b ∈ blocksOf (slotList.map (slot d (ino i))) ↔ ∃ k, place sb d ino (i, k) = some b := by
  rw [mem_blocksOf]
  constructor
  · rintro ⟨a, ha, hne, hb⟩
    obtain ⟨k, -, rfl⟩ := mem_map.mp ha
    exact ⟨k, place_eq_some.mpr ⟨hi, hne, hb⟩⟩
  · rintro ⟨k, hk⟩
    obtain ⟨-, hne, hb⟩ := place_eq_some.mp hk
    exact ⟨_, mem_map_of_mem (mem_slotList (lt_of_slot_ne hne)), hne, hb⟩

theorem freeable_slots (h : Img sb s.disk ino) (hi : Allocated sb ino i) :
    Freeable sb s.disk (blocksOf (slotList.map (slot s.disk (ino i)))) := by
  constructor
  · apply blocksOf_nodup slotList_nodup
    intro k _ l _ hk hl
    exact (h.slot_inj hi hi hk hl).2
  · intro b hb
    obtain ⟨k, hk⟩ := (mem_blocksOf_slotList hi _ b).mp hb
    exact (h.excl.mem hk).2.2

theorem slot_zeroAddrs_direct (d : Disk) (ip : Dinode) :
    indirectSlots.map (slot d (ip.zeroAddrs directSlots)) = indirectSlots.map (slot d ip) := by
  have hind : (ip.zeroAddrs directSlots).ind = ip.ind := by
    have hlast : Fin.last NDIRECT ∉ directSlots := by decide
    simp only [Dinode.ind, Dinode.zeroAddrs, hlast, if_false]
  apply map_congr_left
  intro k hk
  by_cases h12 : k = NDIRECT
  · subst h12
    rw [slot_ind, slot_ind, hind]
  have hge : ¬ k < NDIRECT + 1 := by
    simp only [indirectSlots, mem_append, mem_map, mem_singleton, h12, or_false] at hk
    obtain ⟨j, -, rfl⟩ := hk
    omega
  unfold slot
  rw [dif_neg hge, dif_neg hge, hind]

theorem zeroAddrs_all (ip : Dinode) :
    { (ip.zeroAddrs directSlots).withAddr (Fin.last NDIRECT) 0 with size := 0 } = ip.empty := by
  simp only [Dinode.empty, Dinode.withAddr, Dinode.zeroAddrs, Dinode.mk.injEq, true_and]
  have hdirect : ∀ k : Fin (NDIRECT + 1), k ≠ Fin.last NDIRECT → k ∈ directSlots := by decide
  funext k
  by_cases hk : k = Fin.last NDIRECT
  · rw [hk, update_self]
  · rw [update_of_ne hk, if_pos (hdirect k hk)]

/-- `itrunc` gives up every block of the inode, and the disk holds the emptied inode. -/
theorem itrunc_spec (h : Img sb s.disk ino) (hi : Allocated sb ino i) (he : (s.inode e).din = ino i)
    (hinum : (s.inode e).inum = i) (ho : 0 < s.outstanding) :
    Wp (Allowed al) (itrunc sb e) s fun _ s' =>
      Img sb s'.disk (update ino i (ino i).empty) ∧
      files sb s'.disk (update ino i (ino i).empty) =
        update (files sb s.disk ino) i (some (view s.disk (ino i)).empty) ∧
      s'.inode = update s.inode e { s.inode e with din := (ino i).empty } ∧
      (∀ j, j < sb.ninodes →
        dinodeAt sb s'.disk j = update (dinodeAt sb s.disk) i (ino i).empty j) ∧
      Frame s s' := by
  have hfree := freeable_slots h hi
  have hmem := mem_blocksOf_slotList hi s.disk
  rw [slotList, map_append, blocksOf_append, ← directSlots_map] at hfree hmem
  obtain ⟨hfree1, hfree2⟩ := hfree.append
  simp only [itrunc, iupdate, wp_bind, wp_setInode, wp_getInode, wp_bread]
  refine (itruncDirect_spec directSlots (by decide) ho (by rwa [he])).mono ?_
  rintro _ s1 ⟨hd1, hi1, hf1⟩
  rw [he] at hd1 hi1
  have ho1 := hf1.pos ho
  have hbelow : ∀ b ∈ blocksOf (directSlots.map (ino i).addrs), b < sb.size := by
    intro b hb
    obtain ⟨k, hk⟩ := (hmem b).mp (mem_append_left _ hb)
    exact (h.excl.mem hk).2.1
  have hslots : indirectSlots.map (slot s1.disk (s1.inode e).din) =
      indirectSlots.map (slot s.disk (ino i)) := by
    rw [hi1, update_self, slot_zeroAddrs_direct]
    apply map_congr_left
    intro k _
    apply slot_congr rfl
    intro h0
    rw [hd1]
    exact freeAll_of_ge hbelow (h.ind_mem hi h0).1
  refine (itruncIndirect_spec ho1 (by rwa [hslots, hd1])).mono ?_
  rintro _ s2 ⟨hd2, hi2, hf2⟩
  rw [hslots, hd1, ← freeAll_append] at hd2
  have ho2 := hf2.pos ho1
  refine (logWrite_spec _ _ (by rwa [setIp_outstanding])).mono ?_
  rintro _ s' ⟨hd3, hi3, hf3⟩
  have hip : (s2.setIp e { s2.inode e with din.size := 0 }).inode =
      update s.inode e { s.inode e with din := (ino i).empty } := by
    rw [← zeroAddrs_all]
    simp only [State.setIp, hi2, hi1, update_self, update_idem]
  have hib := sb.iblock_lt hi.1
  have hd : s'.disk = putDinode sb s2.disk i (ino i).empty := by
    rw [hip, update_self, hinum] at hd3
    exact hd3
  have hlow : ∀ b, b < sb.bmapstart → s2.disk b = s.disk b := by
    intro b hb
    rw [hd2, freeAll_of_lt _ hb]
  have hhigh : ∀ b, sb.bmapstart ≤ b → s'.disk b = s2.disk b := by
    intro b hb
    rw [hd, putDinode, update_of_ne (by omega)]
  have hdata : ∀ b, sb.nmeta ≤ b → s'.disk b = s.disk b := by
    intro b hb
    rw [hhigh b (sb.bmapstart_lt.le.trans hb), hd2]
    apply freeAll_of_ge _ hb
    intro c hc
    obtain ⟨k, hk⟩ := (hmem c).mp hc
    exact (h.excl.mem hk).2.1
  have hused : ∀ b, b < sb.size → (used sb s'.disk b = true ↔
      used sb s.disk b = true ∧ ∀ k, place sb s.disk ino (i, k) ≠ some b) := by
    intro b _
    rw [used_congr sb s2.disk (hhigh _ (sb.bblock_ge b)), hd2, used_freeAll, hmem, not_exists]
  obtain ⟨himg, hfiles⟩ := h.clear hdata (slot_empty s'.disk (ino i)) rfl hused
  rw [if_pos (by exact hi), view_empty s.disk] at hfiles
  refine ⟨himg, hfiles, hi3.trans hip, dinodeAt_putDinode sb s.disk hd fun j hj _ => ?_,
    ((hf1.trans hf2).trans (.setIp ..)).trans hf3⟩
  exact dinodeAt_congr sb s.disk (hlow _ (sb.iblock_lt hj))

end Xv6.Fs
