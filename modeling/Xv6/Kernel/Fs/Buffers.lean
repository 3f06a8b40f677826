import Xv6.Kernel.Fs.IoSpec
import Xv6.Kernel.Log.Invariant

namespace Xv6.Fs

open ByteCodec Hoare Function Nat

def Full (sb : Superblock) (d : Disk) : Prop := ∀ b, b < sb.size → used sb d b = true

/-- Only buffers that are in the log have changed. -/
structure Tracked (s s' : State) : Prop where
  logged : ∀ b, b ∈ s.lh → b ∈ s'.lh
  same : ∀ b, b ∉ s'.lh → s'.disk b = s.disk b

instance : IsPreorder State Tracked where
  refl _ := ⟨fun _ hb => hb, fun _ _ => rfl⟩
  trans _ _ _ h h' := ⟨fun b hb => h'.logged b (h.logged b hb),
    fun b hb => (h'.same b hb).trans (h.same b fun hmem => hb (h'.logged b hmem))⟩

variable {sb : Superblock} {al : Known} {s s' : State} {e : Fin NINODE}

theorem logWrite_logs (b : Nat) (data : Block) :
    Wp Any (logWrite sb b data) s fun _ s' =>
      s'.lh = Log.absorb s.lh b ∧ s'.disk = update s.disk b data := by
  simp only [logWrite, wp_bind, wp_get, wp_ite, wp_panic, wp_set, Any]
  split_ifs
  exact ⟨trivial, trivial⟩

theorem logWrite_tracked (sb : Superblock) (b : Nat) (data : Block) :
    Keeps Tracked (logWrite sb b data) := by
  refine ⟨fun s => (logWrite_logs b data).mono ?_⟩
  rintro _ s' ⟨hlh, hdisk⟩
  refine ⟨fun c hc => ?_, fun c hc => ?_⟩
  · rw [hlh, Log.mem_absorb]
    exact .inl hc
  · rw [hlh, Log.mem_absorb, not_or] at hc
    rw [hdisk, update_of_ne hc.2]

theorem tracked_of_eq (hd : s'.disk = s.disk) (hl : s'.lh = s.lh) : Tracked s s' :=
  ⟨fun b hb => by rwa [hl], fun b _ => by rw [hd]⟩

theorem note_tracked (f : History → History) : Keeps Tracked (note f) :=
  .modify fun _ => tracked_of_eq rfl rfl

theorem setInode_tracked (e : Fin NINODE) (f : Inode → Inode) : Keeps Tracked (setInode e f) :=
  .modify fun _ => tracked_of_eq rfl rfl

theorem getInode_tracked (e : Fin NINODE) : Keeps Tracked (getInode e) := .bind .get fun _ => .pure _

theorem bread_tracked (b : Nat) : Keeps Tracked (bread b) := .bind .get fun _ => .pure _

theorem ballocFrom_tracked (n b : Nat) : Keeps Tracked (ballocFrom sb n b) := by
  induction n generalizing b with
  | zero => exact .pure _
  | succ n ih =>
    rw [ballocFrom]
    refine .ite (.bind (bread_tracked _) fun data => ?_) (.pure _)
    split
    · exact .bind (logWrite_tracked ..) fun _ => .bind (logWrite_tracked ..) fun _ =>
        .bind (note_tracked _) fun _ => .pure _
    · exact ih _

theorem bmapSlot_tracked (k : Fin (NDIRECT + 1)) : Keeps Tracked (bmapSlot sb e k) :=
  .bind (getInode_tracked e) fun _ => .ite (.bind (ballocFrom_tracked ..) fun _ => .ite (.pure _)
      (.bind (setInode_tracked ..) fun _ => .pure _))
    (.pure _)

theorem bmap_tracked (bn : Nat) : Keeps Tracked (bmap sb e bn) := by
  unfold bmap
  split
  · exact bmapSlot_tracked _
  · refine .ite (.bind (bmapSlot_tracked _) fun ind => .ite (.pure _) ?_) (.throw _)
    exact .bind (bread_tracked _) fun a => .ite
      (.bind (ballocFrom_tracked ..) fun addr => .ite (.pure _)
        (.bind (logWrite_tracked ..) fun _ => .pure _))
      (.pure _)

theorem iupdate_logs :
    Wp Any (iupdate sb e) s fun _ s' =>
      s'.lh = Log.absorb s.lh (sb.iblock (s.inode e).inum) ∧
      ∀ b, b ≠ sb.iblock (s.inode e).inum → s'.disk b = s.disk b := by
  simp only [iupdate, wp_bind, wp_getInode, wp_bread]
  refine (logWrite_logs _ _).mono ?_
  rintro _ s' ⟨hlh, hdisk⟩
  refine ⟨hlh, fun b hb => ?_⟩
  rw [hdisk, update_of_ne hb]

theorem scanBits_none {data : Block} {n bi : Nat} (h : scanBits data n bi = none) :
    ∀ j, bi ≤ j → j < bi + n → testBit data j = true := by
  induction n generalizing bi with
  | zero =>
    intro j hge hlt
    omega
  | succ n ih =>
    rw [scanBits] at h
    split_ifs at h with hb
    intro j hge hlt
    by_cases hj : j = bi
    · rw [hj]
      exact hb
    · exact ih h j (by omega) (by omega)

/-- What `balloc` logs: a block of the free map and the new block, which is zeroed. No block is left
if it fails. -/
def Taken (sb : Superblock) (s : State) (r : UInt32) (s' : State) : Prop :=
  r = 0 ∧ s'.lh = s.lh ∧ Full sb s'.disk ∨
    r ≠ 0 ∧ used sb s.disk r.toNat = false ∧ s'.disk r.toNat = (fun _ => 0) ∧ r.toNat ∈ s'.lh ∧
      ∀ c, c ∈ s'.lh → c ∈ s.lh ∨ c < sb.nmeta ∨ c = r.toNat

theorem ballocFrom_taken (hm : ∀ b, b < sb.nmeta → used sb s.disk b = true) (n b : Nat)
    (hb : b % BPB = 0) (hbelow : ∀ c, c < b → c < sb.size → used sb s.disk c = true)
    (hn : sb.size ≤ b + n * BPB) : Wp Any (ballocFrom sb n b) s (Taken sb s) := by
  induction n generalizing b with
  | zero => exact .inl ⟨rfl, rfl, fun c hc => hbelow c (by omega) hc⟩
  | succ n ih =>
    simp only [ballocFrom, wp_ite]
    split_ifs with hlt
    · rw [wp_bind, wp_bread]
      have hblock : ∀ j, j < BPB → sb.bblock (b + j) = sb.bblock b ∧ (b + j) % BPB = j := by
        intro j hj
        constructor
        · unfold Superblock.bblock
          rw [add_div_eq_of_add_mod_lt (by rw [hb, mod_eq_of_lt hj]; omega),
            div_eq_of_lt hj, Nat.add_zero]
        · rw [add_mod, hb, Nat.zero_add, mod_mod, mod_eq_of_lt hj]
      cases hscan : scanBits (s.disk (sb.bblock b)) (min BPB (sb.size - b)) 0 with
      | none =>
        apply ih (b + BPB) (by rw [add_mod_right, hb])
        · intro c hc hsize
          by_cases hlow : c < b
          · exact hbelow c hlow hsize
          · obtain ⟨h1, h2⟩ := hblock (c - b) (by omega)
            rw [Nat.add_sub_cancel' (not_lt.mp hlow)] at h1 h2
            unfold used
            rw [h1, h2]
            exact scanBits_none hscan _ (Nat.zero_le _) (by omega)
        · rw [succ_mul] at hn
          omega
      | some bi =>
        obtain ⟨-, hbi, hclear⟩ := scanBits_some hscan
        obtain ⟨h1, h2⟩ := hblock bi (by omega)
        have hsize : b + bi < sb.size := by omega
        have hfree : used sb s.disk (b + bi) = false := by
          unfold used
          rw [h1, h2]
          exact hclear
        have htoNat : (UInt32.ofNat (b + bi)).toNat = b + bi :=
          UInt32.toNat_ofNat_of_lt' (hsize.trans sb.size_lt)
        have hne : UInt32.ofNat (b + bi) ≠ 0 := by
          intro h0
          rw [h0] at htoNat
          have hzero : b + bi = 0 := htoNat.symm
          have hpos := sb.bmapstart_lt
          rw [hzero, hm 0 (by omega)] at hfree
          cases hfree
        have hmeta := sb.bblock_lt hlt
        refine (logWrite_logs _ _).bind ?_
        rintro _ s1 ⟨hlh1, -⟩
        refine (logWrite_logs _ _).bind ?_
        rintro _ s2 ⟨hlh2, hd2⟩
        rw [wp_bind, wp_note, wp_pure]
        refine .inr ⟨hne, by rw [htoNat]; exact hfree, ?_, ?_, ?_⟩
        · change s2.disk _ = _
          rw [htoNat, hd2, update_self]
        · change _ ∈ s2.lh
          rw [htoNat, hlh2, Log.mem_absorb]
          exact .inr rfl
        intro c hc
        change c ∈ s2.lh at hc
        rw [hlh2, Log.mem_absorb, hlh1, Log.mem_absorb] at hc
        rw [htoNat]
        rcases hc with (hc | hc) | hc
        · exact .inl hc
        · exact .inr (.inl (hc ▸ hmeta))
        · exact .inr (.inr hc)
    · exact .inl ⟨rfl, rfl, fun c hc => hbelow c (by omega) hc⟩

theorem balloc_taken (hm : ∀ b, b < sb.nmeta → used sb s.disk b = true) :
    Wp Any (balloc sb) s (Taken sb s) := by
  apply ballocFrom_taken hm _ _ rfl
  · intro c hc
    exact absurd hc (Nat.not_lt_zero c)
  · have := div_add_mod' sb.size BPB
    have hlt : sb.size % BPB < BPB := mod_lt _ (by decide)
    rw [succ_mul]
    omega

variable {ino : Nat → Dinode} {i : Nat}

/-- An address in the inode: it is there, or a new block is taken. -/
theorem bmapSlot_taken (hm : ∀ b, b < sb.nmeta → used sb s.disk b = true) (k : Fin (NDIRECT + 1)) :
    Wp Any (bmapSlot sb e k) s fun r s' =>
      (s.inode e).din.addrs k ≠ 0 ∧ r = (s.inode e).din.addrs k ∧ s' = s ∨
      (s.inode e).din.addrs k = 0 ∧ Taken sb s r s' := by
  simp only [bmapSlot, wp_bind, wp_getInode, wp_ite, wp_pure, wp_setAddr]
  split_ifs with h0
  · refine (balloc_taken hm).mono ?_
    intro r s1 htaken
    split_ifs with hr0
    · rw [hr0] at htaken
      exact .inr ⟨h0, htaken⟩
    · exact .inr ⟨h0, htaken⟩
  · exact .inl ⟨h0, trivial, trivial⟩

variable {r : UInt32}

theorem Taken.spared (ht : Taken sb s r s') {b : Nat} (hb : sb.nmeta ≤ b)
    (hused : used sb s.disk b) (hmem : b ∈ s'.lh) : b ∈ s.lh := by
  rcases ht with ⟨-, hlh, -⟩ | ⟨-, hfree, -, -, hnew⟩
  · rwa [hlh] at hmem
  · rcases hnew b hmem with h | h | h
    · exact h
    · omega
    · rw [← h, hused] at hfree
      cases hfree

theorem Taken.full (ht : Taken sb s r s') (h0 : r = 0) : Full sb s'.disk :=
  (ht.resolve_right fun hne => hne.1 h0).2.2

theorem Taken.new (ht : Taken sb s r s') (h0 : r ≠ 0) :
    s'.disk r.toNat = (fun _ => 0) ∧ r.toNat ∈ s'.lh := by
  obtain ⟨-, -, hzero, hmem, -⟩ := ht.resolve_left fun hz => h0 hz.1
  exact ⟨hzero, hmem⟩

theorem u32_get_zeroed (k : Nat) : u32.get (fun _ => 0 : Block) k = 0 := by
  have hdec : u32.get (fun _ => 0 : Block) k = u32.dec fun _ => 0 := by
    unfold Codec.get
    congr 1
    funext j
    simp
  rw [hdec]
  rfl

/-- What `bmap` does to the buffers and the log. Where it finds no block, none is left; a new block
is in the log; the data blocks that the file had are not logged. -/
structure Mapped (sb : Superblock) (s s' : State) (ip : Dinode) (bn : Nat) (r : UInt32) : Prop where
  full : r = 0 → Full sb s'.disk
  fresh : r ≠ 0 → blockAt s.disk ip bn = 0 → r.toNat ∈ s'.lh
  spared : ∀ bm, blockAt s.disk ip bm ≠ 0 → (blockAt s.disk ip bm).toNat ∈ s'.lh →
    (blockAt s.disk ip bm).toNat ∈ s.lh

variable {bn : Nat}

section

variable (h : Img sb s.disk ino) (hi : Allocated sb ino i)
include h hi

theorem Taken.mapped (ht : Taken sb s r s') : Mapped sb s s' (ino i) bn r where
  full := ht.full
  fresh hr _ := (ht.new hr).2
  spared bm hbm hmem := by
    obtain ⟨hge, -, hused⟩ := h.blockAt_mem hi hbm
    exact ht.spared hge hused hmem

theorem bmapSlot_mapped (he : (s.inode e).din = ino i) (hdir : bn < NDIRECT) :
    Wp Any (bmapSlot sb e ⟨bn, lt_succ_of_lt hdir⟩) s fun r s' =>
      Mapped sb s s' (ino i) bn r := by
  refine (bmapSlot_taken h.metaUsed _).mono ?_
  rintro r s' (⟨hne, rfl, rfl⟩ | ⟨-, htaken⟩)
  · refine ⟨fun hz => absurd hz hne, fun _ hz => ?_, fun _ _ hm => hm⟩
    rw [blockAt, dif_pos hdir, ← he] at hz
    exact absurd hz hne
  · exact htaken.mapped h hi

/-- The part of `bmap` that goes through the indirect block `ind`. -/
theorem bmapEntry_mapped {s1 : State} {ip1 : Dinode} (hx : Extended sb s s1 ino e i ip1)
    (hdir : ¬ bn < NDIRECT) {ind : UInt32} (h0 : ind ≠ 0)
    (hind : ip1.addrs (Fin.last NDIRECT) = ind)
    (hs : (ino i).ind = ind ∧ s1 = s ∨ (ino i).ind = 0 ∧ Taken sb s ind s1) :
    Wp Any (do
      let a ← bread ind.toNat
      if u32.get a (bn - NDIRECT) = 0 then do
        let addr ← balloc sb
        if addr = 0 then return 0
        else do
          logWrite sb ind.toNat (u32.put a (bn - NDIRECT) addr)
          return addr
      else return u32.get a (bn - NDIRECT) : FsM UInt32) s1 fun r s' =>
        Mapped sb s s' (ino i) bn r := by
  have hi1 : Allocated sb (update ino i ip1) i := (allocated_update sb hx.attrs.type i).mpr hi
  have hself : update ino i ip1 i = ip1 := update_self ..
  -- a data block of the file is still one, and not the indirect block
  have hdata : ∀ bm, blockAt s.disk (ino i) bm ≠ 0 → sb.nmeta ≤ (blockAt s.disk (ino i) bm).toNat ∧
      used sb s1.disk (blockAt s.disk (ino i) bm).toNat = true ∧
      (blockAt s.disk (ino i) bm).toNat ≠ ind.toNat := by
    intro bm hbm
    have hkeep := hx.keep bm hbm
    have hne : blockAt s1.disk (update ino i ip1 i) bm ≠ 0 := by
      rw [hself, hkeep]
      exact hbm
    obtain ⟨hge, -, hused⟩ := hx.img.blockAt_mem hi1 hne
    rw [hself, hkeep] at hge hused
    refine ⟨hge, hused, fun heq => ?_⟩
    have hslot : slot s1.disk (update ino i ip1 i) NDIRECT =
        slot s1.disk (update ino i ip1 i) (slotOf bm) := by
      rw [← blockAt_eq_slot, hself, hkeep, slot_ind, Dinode.ind, hind]
      exact (UInt32.toNat_inj.mp heq).symm
    rw [blockAt_eq_slot] at hne
    exact slotOf_ne_ind bm (hx.img.slot_inj hi1 hi1 hne hslot).2.symm
  have hspared1 : ∀ bm, blockAt s.disk (ino i) bm ≠ 0 →
      (blockAt s.disk (ino i) bm).toNat ∈ s1.lh → (blockAt s.disk (ino i) bm).toNat ∈ s.lh := by
    intro bm hbm hmem
    rcases hs with ⟨-, rfl⟩ | ⟨-, htaken⟩
    · exact hmem
    · obtain ⟨hge, -, hused⟩ := h.blockAt_mem hi hbm
      exact htaken.spared hge hused hmem
  simp only [wp_bind, wp_bread, wp_ite, wp_pure]
  split_ifs with hentry
  · refine (balloc_taken hx.img.metaUsed).mono ?_
    intro r s2 htaken
    have hspared2 : ∀ bm, blockAt s.disk (ino i) bm ≠ 0 →
        (blockAt s.disk (ino i) bm).toNat ∈ s2.lh → (blockAt s.disk (ino i) bm).toNat ∈ s.lh := by
      intro bm hbm hmem
      obtain ⟨hge, hused, -⟩ := hdata bm hbm
      exact hspared1 bm hbm (htaken.spared hge hused hmem)
    split_ifs with hr0
    · exact ⟨fun _ => htaken.full hr0, fun hne => absurd rfl hne, hspared2⟩
    refine (logWrite_logs _ _).mono ?_
    rintro _ s3 ⟨hlh3, -⟩
    refine ⟨fun hz => absurd hz hr0, fun _ _ => ?_, fun bm hbm hmem => ?_⟩
    · rw [hlh3, Log.mem_absorb]
      exact .inl (htaken.new hr0).2
    · rw [hlh3, Log.mem_absorb] at hmem
      exact hspared2 bm hbm (hmem.resolve_right (hdata bm hbm).2.2)
  · refine ⟨fun hz => absurd hz hentry, fun _ hz => ?_, hspared1⟩
    -- an entry that is set was there before, since a new indirect block is zeroed
    rcases hs with ⟨hold, rfl⟩ | ⟨-, htaken⟩
    · have hin : (ino i).addrs (Fin.last NDIRECT) = ind := hold
      rw [blockAt, dif_neg hdir, hin, if_neg h0] at hz
      exact absurd hz hentry
    · rw [(htaken.new h0).1, u32_get_zeroed] at hentry
      exact absurd rfl hentry

end

section

variable (h : Img sb s.disk ino) (hi : Allocated sb ino i) (he : (s.inode e).din = ino i)
  (ho : 0 < s.outstanding)
include h hi he ho

theorem bmap_mapped (hbn : bn < MAXFILE) :
    Wp Any (bmap sb e bn) s fun r s' => Mapped sb s s' (ino i) bn r := by
  unfold bmap
  split_ifs with hdir hind
  · exact bmapSlot_mapped h hi he hdir
  · rw [wp_bind]
    have hslot : Wp (Allowed ⟨True, True, True⟩) (bmapSlot sb e (Fin.last NDIRECT)) s _ :=
      bmapSlot_spec h hi he ho _
    refine ((hslot.besides (bmapSlot_taken h.metaUsed _)).errors fun _ _ => trivial).mono ?_
    rintro ind s1 ⟨⟨ip1, hx, hip⟩, htaken⟩
    rw [he] at htaken
    rw [wp_ite]
    split_ifs with h0
    · rcases htaken with ⟨hne, hval, -⟩ | ⟨-, htaken⟩
      · exact absurd (hval.symm.trans h0) hne
      · rw [h0] at htaken
        exact htaken.mapped h hi
    · apply bmapEntry_mapped h hi hx hdir h0 (hip h0)
      rcases htaken with ⟨-, hval, hs⟩ | ⟨hz, htaken⟩
      · exact .inl ⟨hval.symm, hs⟩
      · exact .inr ⟨hz, htaken⟩
  · unfold MAXFILE at hbn
    omega

theorem bmapSlot_slots (k : Fin (NDIRECT + 1)) :
    Wp (Allowed al) (bmapSlot sb e k) s fun _ s' =>
      ∀ l, l ≠ k.val → slot s'.disk (s'.inode e).din l = slot s.disk (ino i) l := by
  simp only [bmapSlot, wp_bind, wp_getInode, wp_ite, wp_pure, wp_setAddr]
  split_ifs with h0
  · refine (balloc_spec ho h.metaUsed).mono ?_
    rintro r s1 ⟨hi1, -, hr⟩
    split_ifs with hr0
    · rcases hr with ⟨-, hd⟩ | g
      · intro l _
        rw [hd, hi1, he]
      · exact absurd hr0 g.ne
    rcases hr with ⟨hz, -⟩ | g
    · exact absurd hz hr0
    intro l hl
    rw [he] at h0
    have := (assigned_direct h hi g k h0).self l
    rw [if_neg hl] at this
    rw [setIp_inode_self, setIp_disk, hi1, he]
    exact this
  · intro l _
    rw [he]

theorem bmap_others (hbn : bn < MAXFILE) :
    Wp (Allowed al) (bmap sb e bn) s fun _ s' => ∀ bm, bm ≠ bn →
      blockAt s'.disk (s'.inode e).din bm = blockAt s.disk (ino i) bm := by
  unfold bmap
  split_ifs with hdir hind
  · refine (bmapSlot_slots h hi he ho _).mono ?_
    intro _ s' hslots bm hbm
    rw [blockAt_eq_slot, blockAt_eq_slot, hslots]
    intro heq
    rw [slotOf] at heq
    split_ifs at heq
    · exact hbm heq
    · simp only at heq
      omega
  · refine ((bmapSlot_spec h hi he ho _).and (bmapSlot_slots h hi he ho _)).bind ?_
    rintro ind s1 ⟨⟨ip1, hx1, hr1⟩, hslots⟩
    have hself : update ino i ip1 i = ip1 := update_self ..
    have hdin1 : (s1.inode e).din = ip1 := by rw [hx1.inode, update_self]
    have hi1 : Allocated sb (update ino i ip1) i := (allocated_update sb hx1.attrs.type i).mpr hi
    have hothers1 : ∀ bm, blockAt s1.disk ip1 bm = blockAt s.disk (ino i) bm := by
      intro bm
      rw [blockAt_eq_slot, blockAt_eq_slot, ← hdin1]
      exact hslots _ (slotOf_ne_ind bm)
    rw [wp_ite]
    split_ifs with h0
    · intro bm _
      rw [hdin1]
      exact hothers1 bm
    have hind1 : ip1.ind = ind := hr1 h0
    simp only [wp_bind, wp_bread, wp_ite, wp_pure]
    split_ifs with hz
    · refine (balloc_spec (hx1.frame.outstanding ▸ ho) hx1.img.metaUsed).mono ?_
      rintro r s2 ⟨hi2, hf2, hr⟩
      split_ifs with hr0
      · rcases hr with ⟨-, hd⟩ | g
        · intro bm _
          rw [hd, hi2, hdin1]
          exact hothers1 bm
        · exact absurd hr0 g.ne
      rcases hr with ⟨hz, -⟩ | g
      · exact absurd hz hr0
      have ho2 : 0 < s2.outstanding := by
        rw [hf2.outstanding, hx1.frame.outstanding]
        exact ho
      refine (logWrite_spec _ _ ho2).mono ?_
      rintro _ s3 ⟨hd3, hi3, -⟩
      have ha := assigned_entry hx1.img hi1 g (by rw [hself, hind1]; exact h0) hind
        (by rw [hself, hind1]; exact hz)
      rw [hself, hind1, ← hd3] at ha
      intro bm hbm
      have hslot := ha.self (slotOf bm)
      rw [if_neg, hself, ← blockAt_eq_slot, ← blockAt_eq_slot] at hslot
      · rw [hi3, hi2, hdin1, hslot]
        exact hothers1 bm
      · rw [slotOf]
        split_ifs <;> omega
    · intro bm _
      rw [hdin1]
      exact hothers1 bm
  · unfold MAXFILE at hbn
    omega

end

end Xv6.Fs
