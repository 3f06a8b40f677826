import Xv6.Mkfs.Blocks

namespace Xv6.Mkfs

open ByteCodec Hoare Fs Function List

/-- A file has exactly the blocks below `off`, and an indirect block only if one of them is in it. -/
structure Tight (d : Disk) (din : Dinode) (off : Nat) : Prop where
  blocks : ∀ bn, blockAt d din bn ≠ 0 ↔ bn * BSIZE < off
  ind : din.ind ≠ 0 ↔ NDIRECT * BSIZE < off

variable {din : Dinode} {off : Nat}

theorem Tight.congr {d d' : Disk} (h : Tight d din off)
    (heq : ∀ bn, blockAt d' din bn = blockAt d din bn) : Tight d' din off :=
  ⟨fun bn => by rw [heq]; exact h.blocks bn, h.ind⟩

/-- Blocks that a file of this size takes up, the indirect block included. -/
def blocksFor (size : Nat) : Nat :=
  (size + BSIZE - 1) / BSIZE + if NDIRECT * BSIZE < size then 1 else 0

variable {n : Nat}

theorem blocksFor_mono {m : Nat} (h : m ≤ n) : blocksFor m ≤ blocksFor n := by
  unfold blocksFor BSIZE
  split_ifs <;> omega

theorem Tight.needed {d : Disk} (h : Tight d din off) (hn : 0 < n)
    (hle : off + n ≤ (off / BSIZE + 1) * BSIZE) :
    Mkfs.needed d din (off / BSIZE) + blocksFor off = blocksFor (off + n) := by
  have hb : blockAt d din (off / BSIZE) = 0 ↔ ¬ off / BSIZE * BSIZE < off := by
    rw [← h.blocks, not_not]
  have hi : din.ind = 0 ↔ ¬ NDIRECT * BSIZE < off := by
    rw [← h.ind, not_not]
  unfold Mkfs.needed blocksFor
  simp only [hb, hi]
  unfold NDIRECT BSIZE at *
  split_ifs <;> omega

/-- The contents of a file start with the bytes. -/
def Starts (data : Nat → Block) (l : List UInt8) : Prop :=
  ∀ j, j < l.length → data (j / BSIZE) (Fin.ofNat BSIZE j) = l.getD j 0

variable {data : Nat → Block} {p : List UInt8}

/-- The next bytes of `p`, as many as fit in the block. -/
theorem Starts.store {l : List UInt8} (h : Starts data l)
    (hn : n ≤ p.length) (hle : l.length + n ≤ (l.length / BSIZE + 1) * BSIZE) :
    Starts (update data (l.length / BSIZE)
      (storeBytes (data (l.length / BSIZE)) (l.length - l.length / BSIZE * BSIZE) n
        fun j => p.getD j 0)) (l ++ p.take n) := by
  intro j hj
  rw [length_append, length_take, min_eq_left hn] at hj
  have hval : (Fin.ofNat BSIZE j).val = j % BSIZE := rfl
  by_cases hold : j < l.length
  · rw [getD_append _ _ _ _ hold, ← h j hold]
    by_cases hb : j / BSIZE = l.length / BSIZE
    · rw [hb, update_self, storeBytes, if_neg]
      unfold BSIZE at *
      omega
    · rw [update_of_ne hb]
  have hb : j / BSIZE = l.length / BSIZE := by
    unfold BSIZE at *
    omega
  have hoff : j % BSIZE - (l.length - l.length / BSIZE * BSIZE) = j - l.length := by
    unfold BSIZE at *
    omega
  rw [hb, update_self, storeBytes, if_pos, hval, hoff,
    getD_append_right _ _ _ _ (by omega), getD_eq_getElem?_getD,
    getD_eq_getElem?_getD, getElem?_take_of_lt (by omega)]
  unfold BSIZE at *
  omega

/-- The contents of file `i` have become `data`; `din` is the inode in memory. -/
structure Wrote (s s' : State) (ino : Nat → Dinode) (i : Nat) (din : Dinode) (data : Nat → Block) :
    Prop where
  built : Built s' (update ino i din)
  files : files sb (image s') (update ino i din) =
    update (files sb (image s) ino) i (some { view (image s) (ino i) with data := data })
  attrs : SameAttrs din (ino i)
  others : ∀ j, j ≠ i → Allocated sb ino j → ∀ bn,
    blockAt (image s') (ino j) bn = blockAt (image s) (ino j) bn
  inodes : ∀ b, b < sb.bmapstart → s'.disk b = s.disk b
  freeinode : s'.freeinode = s.freeinode

variable {s s' : State} {ino : Nat → Dinode} {i : Nat} {room : Prop}

theorem Wrote.refl (h : Built s ino) (hi : Allocated sb ino i) :
    Wrote s s ino i (ino i) (view (image s) (ino i)).data where
  built := by rwa [update_eq_self]
  files := by
    rw [update_eq_self, eq_comm, update_eq_self_iff]
    exact (files_of_allocated hi).symm
  attrs := .refl _
  others _ _ _ _ := rfl
  inodes _ _ := rfl
  freeinode := rfl

section

variable (h : Wrote s s' ino i din data) (hi : Allocated sb ino i)
include h hi

theorem Wrote.allocated : Allocated sb (update ino i din) i :=
  (allocated_update sb h.attrs.type i).mpr hi

theorem Wrote.view_eq : view (image s') din = { view (image s) (ino i) with data := data } := by
  have h1 : Fs.files sb (image s') _ i = some _ := files_of_allocated (h.allocated hi)
  rw [h.files, update_self, update_self] at h1
  exact (Option.some.inj h1).symm

theorem Wrote.trans {s'' : State} {din' : Dinode} {data' : Nat → Block}
    (h' : Wrote s' s'' (update ino i din) i din' data') : Wrote s s'' ino i din' data' := by
  obtain ⟨hbuilt, hfiles, hattrs, hothers, hin, hfi⟩ := h'
  rw [update_idem] at hbuilt hfiles
  rw [update_self] at hfiles hattrs
  refine ⟨hbuilt, ?_, ?_, ?_, fun b hb => (hin b hb).trans (h.inodes b hb), hfi.trans h.freeinode⟩
  · rw [hfiles, h.files, h.view_eq hi, update_idem]
  · exact h.attrs.trans hattrs
  · intro j hj hal bn
    have h2 := hothers j hj ((allocated_update sb h.attrs.type j).mpr hal) bn
    rw [update_of_ne hj] at h2
    exact h2.trans (h.others j hj hal bn)

end

section

variable {m : Nat} {din : Dinode} (h : Grew s s' ino i m din) (hi : Allocated sb ino i)
include h hi

theorem Grew.allocated : Allocated sb (update ino i din) i :=
  (allocated_update sb h.attrs.type i).mpr hi

theorem Grew.view_eq : view (image s') din = view (image s) (ino i) := by
  have h1 : Fs.files sb (image s') (update ino i din) i = some _ :=
    files_of_allocated (h.allocated hi)
  rw [h.files, files_of_allocated hi, update_self] at h1
  exact (Option.some.inj h1).symm

variable {r : UInt32} (hr : blockAt (image s') din m = r) (hne : r ≠ 0)
include hr hne

theorem Grew.read : s'.disk r.toNat = (view (image s) (ino i)).data m := by
  have hself : update ino i din i = din := update_self ..
  have hbn : blockAt (image s') (update ino i din i) m ≠ 0 := by
    rw [hself, hr]
    exact hne
  have hge := (h.built.img.blockAt_mem (h.allocated hi) hbn).1
  have hmeta := bmapstart_lt_nmeta
  rw [hself, hr, sb_nmeta] at hge
  rw [← h.view_eq hi]
  simp only [view]
  rw [hr, if_neg hne, image_of_ne (by omega)]

theorem Grew.write (x : Block) {s'' : State}
    (hs : s'' = { s' with disk := update s'.disk r.toNat x, nsect := max s'.nsect (r.toNat + 1) }) :
    Wrote s s'' ino i din (update (view (image s) (ino i)).data m x) ∧
      ∀ bn, blockAt (image s'') din bn = blockAt (image s') din bn := by
  have hself : update ino i din i = din := update_self ..
  have hal := h.allocated hi
  have hb := h.built
  have hbn : blockAt (image s') (update ino i din i) m ≠ 0 := by
    rw [hself, hr]
    exact hne
  obtain ⟨hge, hsz, hused⟩ := hb.img.blockAt_mem hal hbn
  rw [hself, hr] at hge hsz hused
  have hmeta := bmapstart_lt_nmeta
  rw [sb_nmeta] at hge
  have hnb : r.toNat ≠ sb.bmapstart := by omega
  have hlt : r.toNat < s'.freeblock := by
    have hbpb := FSSIZE_le_BPB
    have hle := hb.le
    rw [used_image (by omega) hsz] at hused
    simpa using hused
  have himg : image s'' = update (image s')
      (blockAt (image s') (update ino i din i) m).toNat x := by
    rw [hself, hr, hs]
    exact update_comm hnb ..
  obtain ⟨himg', hblocks, hfiles⟩ := hb.img.write hal hbn x himg
  rw [hself] at hfiles
  have hblocksi := hblocks i hal
  rw [hself] at hblocksi
  refine ⟨⟨⟨himg', ?_, ?_, ?_, ?_⟩, ?_, h.attrs, ?_, ?_, ?_⟩, hblocksi⟩
  · rw [hs]
    have := hb.nsect
    have : r.toNat < FSSIZE := hsz
    change max s'.nsect _ = FSSIZE
    omega
  · rw [hs]
    exact hb.ge
  · rw [hs]
    exact hb.le
  · intro b hle
    rw [hs] at hle ⊢
    have hle : s'.freeblock ≤ b := hle
    exact (update_of_ne (by omega) ..).trans (hb.fresh b hle)
  · rw [hfiles, h.files, h.view_eq hi]
  · intro j hj halj bn
    have h2 := hblocks j ((allocated_update sb h.attrs.type j).mpr halj) bn
    rw [update_of_ne hj] at h2
    exact h2.trans (h.others j hj halj bn)
  · intro b hlow
    rw [hs]
    exact (update_of_ne (by omega) ..).trans (h.inodes b hlow)
  · rw [hs]
    exact h.freeinode

end

variable (h : Built s ino) (hi : Allocated sb ino i)
include h hi

theorem iappendLoop_round {fuel : Nat} {Q : Dinode × Nat → State → Prop}
    (ht : Tight (image s) (ino i) off) (hp : 0 < p.length)
    (hn : min p.length ((off / BSIZE + 1) * BSIZE - off) = n)
    (hroom : room → s.freeblock + blocksFor (off + n) ≤ FSSIZE + blocksFor off ∧
      off / BSIZE < MAXFILE)
    (hgo : ∀ s' din, off / BSIZE < MAXFILE →
      s'.freeblock + blocksFor off = s.freeblock + blocksFor (off + n) →
      Wrote s s' ino i din (update (view (image s) (ino i)).data (off / BSIZE)
        (storeBytes ((view (image s) (ino i)).data (off / BSIZE)) (off - off / BSIZE * BSIZE) n
          fun j => p.getD j 0)) →
      Tight (image s') din (off + n) →
      Wp (Unless room) (iappendLoop fuel din (off + n) (p.drop n)) s' Q) :
    Wp (Unless room) (iappendLoop (fuel + 1) (ino i) off p) s Q := by
  have hpos : 0 < n ∧ off + n ≤ (off / BSIZE + 1) * BSIZE := by
    unfold BSIZE at hn ⊢
    omega
  have hneed := ht.needed hpos.1 hpos.2
  rw [iappendLoop, if_pos hp]
  simp only [hn]
  by_cases hm : off / BSIZE < MAXFILE
  · rw [if_pos hm]
    refine (fileBlock_spec h hi hm fun hr => ?_).bind ?_
    · have := (hroom hr).1
      omega
    rintro ⟨din, x⟩ s1 ⟨hns, hfb, hok, hind, hblock⟩
    simp only [] at hok hind hblock ⊢
    rw [h.nsect] at hns
    rw [wp_bind]
    apply wp_rsect (fun hr => by rw [hns]; exact hok hr)
    intro hsec
    obtain ⟨hgrew, hat, hne⟩ := hblock (by rw [← hns]; exact hsec)
    rw [wp_bind, wp_wsect, hgrew.read hi hat hne]
    obtain ⟨hwrote, hblocks⟩ := hgrew.write hi hat hne _ rfl
    refine hgo _ _ hm (by simp only; omega) hwrote ⟨fun bn => ?_, ?_⟩
    · rw [hblocks]
      by_cases hbn : bn = off / BSIZE
      · rw [hbn, hat]
        have : off / BSIZE * BSIZE ≤ off := Nat.div_mul_le_self ..
        simp only [ne_eq, hne, not_false_eq_true, true_iff]
        omega
      · rw [hgrew.keep bn (.inl hbn), ht.blocks bn]
        unfold BSIZE at hbn hpos ⊢
        omega
    · rw [hind, ht.ind]
      unfold BSIZE at hpos ⊢
      omega
  · rw [if_neg hm]
    exact fun hr => hm (hroom hr).2

theorem iappendLoop_spec (hoff : off ≤ MAXFILE * BSIZE) (ht : Tight (image s) (ino i) off)
    {l : List UInt8} (hl : Starts (view (image s) (ino i)).data l) (hlen : l.length = off)
    {fuel : Nat} (hf : p.length ≤ fuel)
    (hroom : room → s.freeblock + blocksFor (off + p.length) ≤ FSSIZE + blocksFor off ∧
      off + p.length ≤ MAXFILE * BSIZE) :
    Wp (Unless room) (iappendLoop fuel (ino i) off p) s fun r s' =>
      (∃ data, Starts data (l ++ p) ∧ Wrote s s' ino i r.1 data) ∧ Tight (image s') r.1 r.2 ∧
        r.2 = off + p.length ∧ r.2 ≤ MAXFILE * BSIZE ∧
        s'.freeblock + blocksFor off = s.freeblock + blocksFor (off + p.length) := by
  induction fuel generalizing s ino off l p with
  | zero =>
    have hp : p = [] := length_eq_zero_iff.mp (Nat.le_zero.mp hf)
    subst hp
    rw [iappendLoop, if_neg (by simp), wp_pure, append_nil]
    exact ⟨⟨_, hl, .refl h hi⟩, ht, rfl, hoff, rfl⟩
  | succ fuel ih =>
    by_cases hp : 0 < p.length
    · generalize hn : min p.length ((off / BSIZE + 1) * BSIZE - off) = n
      have hpos : 0 < n ∧ n ≤ p.length ∧ off + n ≤ (off / BSIZE + 1) * BSIZE := by
        unfold BSIZE at hn ⊢
        omega
      have hmono : blocksFor (off + n) ≤ blocksFor (off + p.length) := blocksFor_mono (by omega)
      apply iappendLoop_round h hi ht hp hn
      · intro hr
        have := hroom hr
        unfold BSIZE at this ⊢
        omega
      intro s1 din hm hfb hw ht1
      have hself : update ino i din i = din := update_self ..
      have hmax : (off / BSIZE + 1) * BSIZE ≤ MAXFILE * BSIZE := Nat.mul_le_mul_right _ hm
      have hdrop : (p.drop n).length = p.length - n := length_drop
      have hsum : off + n + (p.length - n) = off + p.length := by omega
      have hl1 : Starts (view (image s1) (update ino i din i)).data (l ++ p.take n) := by
        rw [hself, hw.view_eq hi]
        subst hlen
        exact hl.store hpos.2.1 hpos.2.2
      have hlen1 : (l ++ p.take n).length = off + n := by
        rw [length_append, length_take, min_eq_left hpos.2.1, hlen]
      rw [← hself] at ht1
      have hloop := ih hw.built (hw.allocated hi) (p := p.drop n) (by omega) ht1 hl1 hlen1
        (by omega) (by
          intro hr
          have := hroom hr
          rw [hdrop, hsum]
          omega)
      rw [hself, hdrop, hsum, append_assoc, take_append_drop] at hloop
      refine hloop.mono ?_
      rintro r s' ⟨⟨data, hdata, hw'⟩, ht', hr, hle, hfb'⟩
      exact ⟨⟨data, hdata, hw.trans hi hw'⟩, ht', hr, hle, by omega⟩
    · have hp : p = [] := length_eq_zero_iff.mp (by omega)
      subst hp
      rw [iappendLoop, if_neg (by simp), wp_pure, append_nil]
      exact ⟨⟨_, hl, .refl h hi⟩, ht, rfl, hoff, rfl⟩

omit h hi in
theorem storeBytes_direntBytes (data : Block) (k inum : Nat) (name : List UInt8) :
    storeBytes data (16 * k - 16 * k / BSIZE * BSIZE) 16
        (fun j => (direntBytes inum name).getD j 0) =
      dirent.put data (k % 64) ⟨UInt16.ofNat inum, strncpy name⟩ := by
  have hoff : 16 * k - 16 * k / BSIZE * BSIZE = 16 * k % BSIZE := by
    unfold BSIZE
    omega
  rw [hoff, ← storeBytes_dirent]
  congr 1
  funext j
  simp only [direntBytes, direntSource, Source.kernel, Nat.zero_add]
  by_cases hj : j < 16
  · rw [dif_pos hj, getD_eq_getElem _ _ (by simpa using hj), List.getElem_ofFn]
  · rw [dif_neg hj, getD_eq_default _ _ (by simpa using hj)]

/-- Appending a directory entry where a whole number of entries ends. -/
theorem iappendLoop_dirent {k : Nat} (ht : Tight (image s) (ino i) (16 * k)) (inum : Nat)
    (name : List UInt8)
    (hroom : room → s.freeblock + blocksFor (16 * k + 16) ≤ FSSIZE + blocksFor (16 * k) ∧
      16 * k < MAXFILE * BSIZE) :
    Wp (Unless room) (iappendLoop 16 (ino i) (16 * k) (direntBytes inum name)) s fun r s' =>
      Wrote s s' ino i r.1 (update (view (image s) (ino i)).data (k / 64)
        (dirent.put ((view (image s) (ino i)).data (k / 64)) (k % 64)
          ⟨UInt16.ofNat inum, strncpy name⟩)) ∧
        Tight (image s') r.1 r.2 ∧ r.2 = 16 * k + 16 ∧ r.2 ≤ MAXFILE * BSIZE ∧
        s'.freeblock + blocksFor (16 * k) = s.freeblock + blocksFor (16 * k + 16) := by
  have hlen : (direntBytes inum name).length = 16 := length_ofFn
  have hmin : min (direntBytes inum name).length ((16 * k / BSIZE + 1) * BSIZE - 16 * k) = 16 := by
    unfold BSIZE
    omega
  have hblock : 16 * k / BSIZE = k / 64 := by
    unfold BSIZE
    omega
  apply iappendLoop_round h hi ht (by omega) hmin
  · intro hr
    have := hroom hr
    unfold BSIZE at *
    omega
  rw [storeBytes_direntBytes, hblock, drop_of_length_le (by omega)]
  intro s' din hm hfb hw ht'
  rw [iappendLoop, if_neg (by simp), wp_pure]
  refine ⟨hw, ht', rfl, ?_, hfb⟩
  unfold BSIZE
  simp only
  omega

end Xv6.Mkfs
