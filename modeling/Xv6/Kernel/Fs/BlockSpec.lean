import Xv6.Kernel.Fs.Image

namespace Xv6.Fs

open ByteCodec Hoare Function Nat

/-- What is known beyond block ownership: all directories hold whole entries, every entry of a
directory is counted in a link count, and the inode table has room for the lookups. -/
structure Known where
  whole : Prop
  counted : Prop
  room : Prop

/-- How a system call may stop on a consistent disk. -/
def Allowed (al : Known) : Stop → Prop
  | .panic .freeingFreeBlock => False
  | .panic .outsideTrans => False
  | .panic .bmapOutOfRange => False
  | .panic .dirlookupRead => ¬ al.whole
  | .panic .dirlinkRead => ¬ al.whole
  | .panic .isdiremptyReadi => ¬ al.whole
  | .panic .unlinkNlink => ¬ al.counted
  | .panic .igetNoInodes => ¬ al.room
  | .panic _ => True
  | .deadlock => True
  | .endless => False

/-- What the block and inode layers leave alone. -/
structure Frame (s s' : State) : Prop where
  file : s'.file = s.file
  proc : s'.proc = s.proc
  outstanding : s'.outstanding = s.outstanding
  readAllocs : s'.hist.readAllocs = s.hist.readAllocs
  freedDirs : s'.hist.freedDirs = s.hist.freedDirs
  deadParent : s'.hist.deadParent = s.hist.deadParent
  linkMax : s'.hist.linkMax = s.hist.linkMax
  commits : s'.hist.commits = s.hist.commits

theorem Frame.refl (s : State) : Frame s s := ⟨rfl, rfl, rfl, rfl, rfl, rfl, rfl, rfl⟩

variable {s' : State}

theorem Frame.pos {s : State} (h : Frame s s') (ho : 0 < s.outstanding) : 0 < s'.outstanding :=
  ho.trans_eq h.outstanding.symm

theorem Frame.trans {s s'' : State} (h : Frame s s') (h' : Frame s' s'') : Frame s s'' :=
  ⟨h'.file.trans h.file, h'.proc.trans h.proc, h'.outstanding.trans h.outstanding,
    h'.readAllocs.trans h.readAllocs, h'.freedDirs.trans h.freedDirs,
    h'.deadParent.trans h.deadParent, h'.linkMax.trans h.linkMax,
    h'.commits.trans h.commits⟩

def State.setIp (s : State) (e : Fin NINODE) (ip : Inode) : State :=
  { s with inode := update s.inode e ip }

variable {sb : Superblock} {al : Known} {s : State}

@[simp] theorem setIp_inode_self (e : Fin NINODE) (ip : Inode) : (s.setIp e ip).inode e = ip :=
  update_self ..

variable {e : Fin NINODE}

theorem setIp_inode_of_ne {e' : Fin NINODE} (h : e' ≠ e) (ip : Inode) :
    (s.setIp e ip).inode e' = s.inode e' := update_of_ne h ..

@[simp] theorem setIp_setIp (e : Fin NINODE) (ip ip' : Inode) :
    (s.setIp e ip).setIp e ip' = s.setIp e ip' := by
  simp [State.setIp]

section

variable (e : Fin NINODE) (ip : Inode)

@[simp] theorem setIp_disk : (s.setIp e ip).disk = s.disk := rfl

@[simp] theorem setIp_file : (s.setIp e ip).file = s.file := rfl

@[simp] theorem setIp_outstanding : (s.setIp e ip).outstanding = s.outstanding := rfl

end

theorem Frame.setIp (s : State) (e : Fin NINODE) (ip : Inode) : Frame s (s.setIp e ip) :=
  ⟨rfl, rfl, rfl, rfl, rfl, rfl, rfl, rfl⟩

variable {E : Stop → Prop}

theorem wp_panic {α : Type} {p : Panic} {Q : α → State → Prop} :
    Wp E (panic p : FsM α) s Q ↔ E (.panic p) := Iff.rfl

theorem wp_bread {b : Nat} {Q : Block → State → Prop} :
    Wp E (bread b) s Q ↔ Q (s.disk b) s := Iff.rfl

theorem wp_getInode {Q : Inode → State → Prop} :
    Wp E (getInode e) s Q ↔ Q (s.inode e) s := Iff.rfl

variable {Q : PUnit → State → Prop}

theorem wp_setInode {f : Inode → Inode} :
    Wp E (setInode e f) s Q ↔ Q ⟨⟩ (s.setIp e (f (s.inode e))) := Iff.rfl

theorem wp_note {f : History → History} :
    Wp E (note f) s Q ↔ Q ⟨⟩ { s with hist := f s.hist } := Iff.rfl

theorem wp_noteUnless {ok : Bool} (h : ok) : Wp E (noteUnless ok) s Q ↔ Q ⟨⟩ s := by
  rw [noteUnless, wp_note, h, Bool.not_true]
  simp only [Bool.or_false]

theorem logWrite_spec (b : Nat) (data : Block) (ho : 0 < s.outstanding) :
    Wp (Allowed al) (logWrite sb b data) s fun _ s' =>
      s'.disk = update s.disk b data ∧ s'.inode = s.inode ∧ Frame s s' := by
  unfold logWrite
  simp only [wp_bind, wp_get, wp_ite, wp_panic, wp_set]
  split_ifs with h1 h2
  · trivial
  · omega
  · exact ⟨trivial, trivial, rfl, rfl, rfl, rfl, rfl, rfl, rfl, rfl⟩

theorem scanBits_some {data : Block} {n bi r : Nat} (h : scanBits data n bi = some r) :
    bi ≤ r ∧ r < bi + n ∧ testBit data r = false := by
  induction n generalizing bi with
  | zero => cases h
  | succ n ih =>
    rw [scanBits] at h
    split_ifs at h with hb
    · obtain ⟨h1, h2, h3⟩ := ih h
      exact ⟨by omega, by omega, h3⟩
    · cases h
      exact ⟨le_rfl, by omega, by simpa using hb⟩

theorem grown_of_clear {d : Disk} (hm : ∀ b, b < sb.nmeta → used sb d b = true) {r : Nat}
    (hr : r < sb.size) (hfree : used sb d r = false) :
    Grown sb d (update (markUsed sb d r) r fun _ => 0) (UInt32.ofNat r) := by
  have hn : (UInt32.ofNat r).toNat = r := UInt32.toNat_ofNat_of_lt' (hr.trans sb.size_lt)
  have hge : sb.nmeta ≤ r := by
    by_contra hlt
    rw [hm r (not_le.mp hlt)] at hfree
    cases hfree
  have hpos := sb.bmapstart_lt
  have hb := sb.bblock_lt hr
  have hb' := sb.bblock_ge r
  constructor
  · intro h0
    rw [h0] at hn
    have : r = 0 := hn.symm
    omega
  · rwa [hn]
  · rwa [hn]
  · rwa [hn]
  · intro b hbm
    rw [update_of_ne (by omega), markUsed, update_of_ne (by omega)]
  · intro c hc
    have hcb := sb.bblock_lt hc
    rw [used_congr sb (markUsed sb d r) (update_of_ne (by omega) _ _), used_markUsed, hn]
  · rw [hn, update_self]
  · intro b hbm hne
    rw [hn] at hne
    rw [update_of_ne hne, markUsed, update_of_ne (by omega)]

/-- What `balloc` returns: a fresh zeroed block, or 0 and nothing changed. -/
def Balloced (sb : Superblock) (s : State) (r : UInt32) (s' : State) : Prop :=
  s'.inode = s.inode ∧ Frame s s' ∧ (r = 0 ∧ s'.disk = s.disk ∨ Grown sb s.disk s'.disk r)

section

variable (ho : 0 < s.outstanding) (hm : ∀ b, b < sb.nmeta → used sb s.disk b = true)
include ho hm

theorem ballocFrom_spec (n b : Nat) (hb : b % BPB = 0) :
    Wp (Allowed al) (ballocFrom sb n b) s (Balloced sb s) := by
  induction n generalizing b with
  | zero => exact ⟨rfl, .refl s, .inl ⟨rfl, rfl⟩⟩
  | succ n ih =>
    simp only [ballocFrom, wp_ite]
    split_ifs with hlt
    · rw [wp_bind, wp_bread]
      cases hscan : scanBits (s.disk (sb.bblock b)) (min BPB (sb.size - b)) 0 with
      | none => exact ih (b + BPB) (by rw [add_mod_right, hb])
      | some bi =>
        obtain ⟨-, hbi, hclear⟩ := scanBits_some hscan
        have hbit : bi < BPB := by omega
        have hblock : sb.bblock (b + bi) = sb.bblock b := by
          unfold Superblock.bblock
          rw [add_div_eq_of_add_mod_lt (by rw [hb, mod_eq_of_lt hbit]; omega),
            div_eq_of_lt hbit, Nat.add_zero]
        have hmod : (b + bi) % BPB = bi := by
          rw [add_mod, hb, Nat.zero_add, mod_mod, mod_eq_of_lt hbit]
        have hfree : used sb s.disk (b + bi) = false := by
          unfold used
          rw [hblock, hmod]
          exact hclear
        refine (logWrite_spec _ _ ho).bind ?_
        rintro _ s1 ⟨hd1, hi1, hf1⟩
        simp only [bzero, wp_bind]
        refine (logWrite_spec _ _ (hf1.outstanding ▸ ho)).mono ?_
        rintro _ s2 ⟨hd2, hi2, hf2⟩
        simp only [wp_note, wp_pure]
        refine ⟨hi2.trans hi1, ?_, .inr ?_⟩
        · obtain ⟨h1, h2, h3, h4, h5, h6, h7, h8⟩ := hf1.trans hf2
          exact ⟨h1, h2, h3, h4, h5, h6, h7, h8⟩
        · have := grown_of_clear hm (r := b + bi) (by omega) hfree
          rw [markUsed, hblock, hmod, ← hd1, ← hd2] at this
          exact this
    · exact ⟨rfl, .refl s, .inl ⟨rfl, rfl⟩⟩

theorem balloc_spec : Wp (Allowed al) (balloc sb) s (Balloced sb s) := ballocFrom_spec ho hm _ _ rfl

end

theorem bfree_spec {b : Nat} (ho : 0 < s.outstanding) (hb : used sb s.disk b) :
    Wp (Allowed al) (bfree sb b) s fun _ s' =>
      s'.disk = markFree sb s.disk b ∧ s'.inode = s.inode ∧ Frame s s' := by
  unfold bfree
  simp only [wp_bind, wp_bread, wp_ite]
  unfold used at hb
  rw [if_pos hb]
  exact logWrite_spec _ _ ho

variable {ino : Nat → Dinode} {e : Fin NINODE} {i : Nat}

/-- Inode `i`, cached in entry `e`, may have gained blocks. `ip'` is the cached inode, which the
disk does not hold yet. -/
structure Extended (sb : Superblock) (s s' : State) (ino : Nat → Dinode) (e : Fin NINODE) (i : Nat)
    (ip' : Dinode) : Prop where
  img : Img sb s'.disk (update ino i ip')
  files : files sb s'.disk (update ino i ip') = files sb s.disk ino
  attrs : SameAttrs ip' (ino i)
  keep : ∀ bn, blockAt s.disk (ino i) bn ≠ 0 → blockAt s'.disk ip' bn = blockAt s.disk (ino i) bn
  inodes : ∀ b, b < sb.bmapstart → s'.disk b = s.disk b
  inode : s'.inode = update s.inode e { s.inode e with din := ip' }
  frame : Frame s s'

theorem Extended.stay (h : Img sb s.disk ino) (he : (s.inode e).din = ino i) (hd : s'.disk = s.disk)
    (hi : s'.inode = s.inode) (hf : Frame s s') : Extended sb s s' ino e i (ino i) where
  img := by rwa [hd, update_eq_self]
  files := by rw [hd, update_eq_self]
  attrs := .refl _
  keep _ _ := by rw [hd]
  inodes _ _ := by rw [hd]
  inode := by rw [hi, ← he, update_eq_self]
  frame := hf

theorem Extended.trans {s'' : State} {ip' ip'' : Dinode} (h : Extended sb s s' ino e i ip')
    (h' : Extended sb s' s'' (update ino i ip') e i ip'') : Extended sb s s'' ino e i ip'' where
  img := by
    have := h'.img
    rwa [update_idem] at this
  files := by
    have := h'.files
    rw [update_idem] at this
    exact this.trans h.files
  attrs := by
    have := h'.attrs
    rw [update_self] at this
    exact h.attrs.trans this
  keep bn hbn := by
    have h1 := h.keep bn hbn
    have h2 := h'.keep bn
    rw [update_self, h1] at h2
    exact h2 hbn
  inodes b hb := (h'.inodes b hb).trans (h.inodes b hb)
  inode := by rw [h'.inode, h.inode, update_idem, update_self]
  frame := h.frame.trans h'.frame

theorem Extended.of_assigned {ip' : Dinode} {k : Nat} {r : UInt32}
    (h : Img sb s.disk ino) (a : Assigned sb s.disk s'.disk ino i ip' k r)
    (hd : ∀ b, b < sb.bmapstart → s'.disk b = s.disk b)
    (hi : s'.inode = update s.inode e { s.inode e with din := ip' }) (hf : Frame s s') :
    Extended sb s s' ino e i ip' where
  img := a.img h
  files := a.files_eq
  attrs := a.attrs
  keep bn hbn := by
    have := a.blockAt_of_ne a.alloc hbn
    rwa [update_self] at this
  inodes := hd
  inode := hi
  frame := hf

theorem wp_setAddr {k : Fin (NDIRECT + 1)} {a : UInt32} :
    Wp E (setAddr e k a) s Q ↔
      Q ⟨⟩ (s.setIp e { s.inode e with din := (s.inode e).din.withAddr k a }) := Iff.rfl

section

variable (h : Img sb s.disk ino) (hi : Allocated sb ino i) (he : (s.inode e).din = ino i)
  (ho : 0 < s.outstanding)
include h hi he ho

theorem bmapSlot_spec (k : Fin (NDIRECT + 1)) :
    Wp (Allowed al) (bmapSlot sb e k) s fun r s' =>
      ∃ ip', Extended sb s s' ino e i ip' ∧ (r ≠ 0 → ip'.addrs k = r) := by
  simp only [bmapSlot, wp_bind, wp_getInode, wp_ite, wp_pure, wp_setAddr]
  split_ifs with h0
  · refine (balloc_spec ho h.metaUsed).mono ?_
    rintro r s1 ⟨hi1, hf1, hr⟩
    split_ifs with hr0
    · cases hr with
      | inl hr => exact ⟨ino i, .stay h he hr.2 hi1 hf1, fun hne => absurd rfl hne⟩
      | inr g => exact absurd hr0 g.ne
    cases hr with
    | inl hr => exact absurd hr.1 hr0
    | inr g =>
      rw [he] at h0
      refine ⟨(ino i).withAddr k r, ?_, fun _ => by rw [withAddr_addrs, if_pos rfl]⟩
      refine .of_assigned h (assigned_direct h hi g k h0) g.inodes ?_ (hf1.trans (.setIp ..))
      simp only [State.setIp, hi1, he]
  · exact ⟨ino i, .stay h he rfl rfl (.refl s), fun _ => by rw [he]⟩

theorem bmap_spec {bn : Nat} (hbn : bn < MAXFILE) :
    Wp (Allowed al) (bmap sb e bn) s fun r s' =>
      ∃ ip', Extended sb s s' ino e i ip' ∧ (r ≠ 0 → blockAt s'.disk ip' bn = r) := by
  unfold bmap
  split_ifs with hdir hind
  · refine (bmapSlot_spec h hi he ho _).mono ?_
    rintro r s' ⟨ip', hx, hr⟩
    refine ⟨ip', hx, fun hne => ?_⟩
    rw [blockAt, dif_pos hdir]
    exact hr hne
  · refine (bmapSlot_spec h hi he ho _).bind ?_
    rintro ind s1 ⟨ip1, hx1, hr1⟩
    rw [wp_ite]
    split_ifs with h0
    · exact ⟨ip1, hx1, fun hne => absurd rfl hne⟩
    have hind1 : ip1.ind = ind := hr1 h0
    have hi1 : Allocated sb (update ino i ip1) i := (allocated_update sb hx1.attrs.type i).mpr hi
    have he1 : (s1.inode e).din = update ino i ip1 i := by
      rw [hx1.inode, update_self, update_self]
    have hself : (update ino i ip1) i = ip1 := update_self ..
    have hread : ∀ d : Disk, blockAt d ip1 bn = u32.get (d ind.toNat) (bn - NDIRECT) := by
      intro d
      rw [blockAt, dif_neg hdir, if_neg (by rw [← Dinode.ind, hind1]; exact h0), ← Dinode.ind,
        hind1]
    simp only [wp_bind, wp_bread, wp_ite, wp_pure]
    split_ifs with hz
    · refine (balloc_spec (hx1.frame.outstanding ▸ ho) hx1.img.metaUsed).mono ?_
      rintro r s2 ⟨hi2, hf2, hr⟩
      split_ifs with hr0
      · cases hr with
        | inl hr =>
          have hx2 := Extended.stay hx1.img he1 hr.2 hi2 hf2
          rw [hself] at hx2
          exact ⟨ip1, hx1.trans hx2, fun hne => absurd rfl hne⟩
        | inr g => exact absurd hr0 g.ne
      cases hr with
      | inl hr => exact absurd hr.1 hr0
      | inr g =>
        have ho2 : 0 < s2.outstanding := by
          rw [hf2.outstanding, hx1.frame.outstanding]
          exact ho
        refine (logWrite_spec _ _ ho2).mono ?_
        rintro _ s3 ⟨hd3, hi3, hf3⟩
        have ha := assigned_entry hx1.img hi1 g (by rw [hself, hind1]; exact h0) hind
          (by rw [hself, hind1]; exact hz)
        rw [hself, hind1, ← hd3] at ha
        refine ⟨ip1, hx1.trans ?_, fun _ => ?_⟩
        · apply Extended.of_assigned hx1.img ha
          · intro b hb
            have hm := (hx1.img.ind_mem hi1 (by rw [hself, hind1]; exact h0)).1
            rw [hself, hind1] at hm
            have := sb.bmapstart_lt
            rw [hd3, update_of_ne (by omega), g.inodes b hb]
          · rw [hi3, hi2, hx1.inode, update_self, update_idem]
          · exact hf2.trans hf3
        · have := ha.self (NDIRECT + 1 + (bn - NDIRECT))
          rw [if_pos rfl] at this
          rw [blockAt_eq_slot, slotOf, if_neg hdir, ← this]
          congr 1
          omega
    · exact ⟨ip1, hx1, fun _ => hread _⟩
  · unfold MAXFILE at hbn
    omega

end

/-- Where a block is in place, `bmap` returns it and changes nothing; this needs no transaction. -/
theorem bmap_read {bn : Nat} (hne : blockAt s.disk (s.inode e).din bn ≠ 0) :
    Wp E (bmap sb e bn) s fun r s' => r = blockAt s.disk (s.inode e).din bn ∧ s' = s := by
  unfold bmap
  by_cases hdir : bn < NDIRECT
  · rw [blockAt, dif_pos hdir] at *
    simp only [dif_pos hdir, bmapSlot, wp_bind, wp_getInode, wp_ite, wp_pure, if_neg hne]
    trivial
  rw [blockAt, dif_neg hdir] at *
  rw [dif_neg hdir]
  by_cases h0 : (s.inode e).din.addrs (Fin.last NDIRECT) = 0
  · rw [if_pos h0] at hne
    exact absurd rfl hne
  rw [if_neg h0] at *
  have hind : bn - NDIRECT < NINDIRECT := by
    by_contra hge
    exact hne (u32_get_ge _ (not_lt.mp hge))
  simp only [if_pos hind, bmapSlot, wp_bind, wp_getInode, wp_ite, wp_pure, if_neg h0, wp_bread,
    if_neg hne]
  trivial

end Xv6.Fs
