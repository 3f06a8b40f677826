import Xv6.Kernel.Fs.InodeSpec

namespace Xv6.Fs

open ByteCodec Hoare Function List Nat UInt32

variable {sb : Superblock} {al : Known} {s s' : State} {t : Fin NINODE → Nat} {e : Fin NINODE}
  {off n fuel tot : Nat}

section Read

section

variable (h : Inv sb s t) (hr : 0 < (s.inode e).ref) (hv : (s.inode e).valid)
include h hr hv

theorem noHole_of_inv :
    ∀ bn, bn * BSIZE < (s.inode e).din.size.toNat → blockAt s.disk (s.inode e).din bn ≠ 0 := by
  rw [(h.cached e hr hv).1]
  exact h.img.noHole _ (h.allocated hr hv)

theorem size_le_of_inv : (s.inode e).din.size.toNat ≤ MAXFILE * BSIZE := by
  rw [(h.cached e hr hv).1]
  exact h.img.bound _ (h.allocated hr hv)

end

theorem readiLoop_done {ok : Nat → Nat → Bool} {acc : List UInt8}
    (h : n ≤ tot) : readiLoop sb e ok n fuel off tot acc = pure ((tot : Int), acc) := by
  cases fuel <;> simp [readiLoop, not_lt.mpr h]

variable {E : Stop → Prop}

theorem readiLoop_round {ok : Nat → Nat → Bool}
    {acc : List UInt8} {Q : Int × List UInt8 → State → Prop} (htot : tot < n)
    (hne : blockAt s.disk (s.inode e).din (off / BSIZE) ≠ 0)
    (hbad : ok tot (min (n - tot) (BSIZE - off % BSIZE)) = false → Q (-1, acc) s)
    (hok : Wp E (readiLoop sb e ok n fuel
      (off + min (n - tot) (BSIZE - off % BSIZE)) (tot + min (n - tot) (BSIZE - off % BSIZE))
      (acc ++ bytesFrom (s.disk (blockAt s.disk (s.inode e).din (off / BSIZE)).toNat) (off % BSIZE)
        (min (n - tot) (BSIZE - off % BSIZE)))) s Q) :
    Wp E (readiLoop sb e ok n (fuel + 1) off tot acc) s Q := by
  simp only [readiLoop, if_pos htot, wp_bind, wp_get]
  refine (bmap_read hne).mono ?_
  rintro addr s1 ⟨haddr, hs1⟩
  subst hs1 haddr
  have hnote : { s1 with hist := { s1.hist with
      readAllocs := s1.hist.readAllocs + (s1.hist.allocs - s1.hist.allocs) } } = s1 := by
    rw [Nat.sub_self, Nat.add_zero]
  rw [wp_note, hnote, if_neg hne, wp_bind, wp_bread, wp_ite]
  split_ifs with hcopy
  · exact hok
  · exact hbad (Bool.not_eq_true _ ▸ hcopy)

theorem readiLoop_spec
    (hhole : ∀ bn, bn * BSIZE < (s.inode e).din.size.toNat → blockAt s.disk (s.inode e).din bn ≠ 0)
    (ok : Nat → Nat → Bool) (n fuel off tot : Nat) (acc : List UInt8)
    (hoff : off + (n - tot) ≤ (s.inode e).din.size.toNat) (hfuel : n - tot ≤ fuel) :
    Wp (Allowed al) (readiLoop sb e ok n fuel off tot acc) s fun _ s' => s' = s := by
  induction fuel generalizing off tot acc with
  | zero =>
    rw [readiLoop_done (by omega)]
    rfl
  | succ fuel ih =>
    by_cases htot : tot < n
    · have hlt : off / BSIZE * BSIZE < (s.inode e).din.size.toNat := by
        have := div_mul_le_self off BSIZE
        omega
      have hmod : off % BSIZE < BSIZE := mod_lt _ (by decide)
      apply readiLoop_round htot (hhole _ hlt) (fun _ => rfl)
      apply ih
      · omega
      · omega
    · rw [readiLoop_done (by omega)]
      rfl

/-- Reading changes nothing; in particular it allocates no block. -/
theorem readi_spec (h : Inv sb s t) (hr : 0 < (s.inode e).ref) (hv : (s.inode e).valid)
    (ok : Nat → Nat → Bool) (off n : Nat) :
    Wp (Allowed al) (readi sb e ok off n) s fun _ s' => s' = s := by
  simp only [readi, wp_bind, wp_getInode]
  split_ifs with h1 h2
  · rfl
  all_goals exact readiLoop_spec (noHole_of_inv h hr hv) _ _ _ _ _ _ (by omega) (by omega)

theorem bytesFrom_getD (data : Block) (off m j : Nat) (h : j < m) :
    (bytesFrom data off m).getD j 0 = data (Fin.ofNat BSIZE (off + j)) := by
  unfold bytesFrom
  rw [getD_eq_getElem?_getD, getElem?_map, getElem?_range h]
  rfl

theorem direntOf_bytesFrom (data : Block) (k : Nat) :
    direntOf (bytesFrom data (16 * k % BSIZE) 16) = dirent.get data (k % 64) := by
  unfold direntOf Codec.get
  congr 1
  funext j
  have hlt : k % 64 * 16 + j.val < BSIZE := by
    have := j.isLt
    have : k % 64 < 64 := mod_lt _ (by decide)
    simp only [BSIZE]
    omega
  rw [bytesFrom_getD _ _ _ _ j.isLt, dif_pos hlt]
  congr 1
  apply Fin.ext
  change (16 * k % BSIZE + j.val) % BSIZE = k % 64 * 16 + j.val
  simp only [BSIZE] at *
  omega

def View.byte (v : View) (k : Nat) : UInt8 := v.data (k / BSIZE) (Fin.ofNat BSIZE k)

theorem bytesFrom_data (v : View) {m : Nat} (hm : m ≤ BSIZE - off % BSIZE) :
    bytesFrom (v.data (off / BSIZE)) (off % BSIZE) m =
      (range m).map fun j => v.byte (off + j) := by
  unfold bytesFrom View.byte
  apply map_congr_left
  intro j hj
  have hj := mem_range.mp hj
  have hblock : (off + j) / BSIZE = off / BSIZE := by
    unfold BSIZE at *
    omega
  have hoff : Fin.ofNat BSIZE (off % BSIZE + j) = Fin.ofNat BSIZE (off + j) :=
    Fin.ext (mod_add_mod off BSIZE j)
  rw [hblock, hoff]

/-- Where the blocks are in place, the loop of `readi` copies the bytes of the file. -/
theorem readiLoop_bytes (n fuel off tot : Nat) (acc : List UInt8)
    (hblocks : ∀ bn, off / BSIZE ≤ bn → bn * BSIZE < off + (n - tot) →
      blockAt s.disk (s.inode e).din bn ≠ 0) (htot : tot ≤ n) (hfuel : n - tot ≤ fuel) :
    Wp E (readiLoop sb e (fun _ _ => true) n fuel off tot acc) s fun r s' => s' = s ∧
      r = ((n : Int), acc ++ (range (n - tot)).map fun j =>
        (view s.disk (s.inode e).din).byte (off + j)) := by
  induction fuel generalizing off tot acc with
  | zero =>
    have hn : n = tot := by omega
    rw [hn, readiLoop_done (le_refl _), Nat.sub_self, range_zero, map_nil, append_nil, wp_pure]
    exact ⟨rfl, rfl⟩
  | succ fuel ih =>
    by_cases hlt : tot < n
    · have hmod : off % BSIZE < BSIZE := mod_lt _ (by decide)
      have hne : blockAt s.disk (s.inode e).din (off / BSIZE) ≠ 0 := by
        apply hblocks _ (le_refl _)
        have := div_mul_le_self off BSIZE
        omega
      have hdata : s.disk (blockAt s.disk (s.inode e).din (off / BSIZE)).toNat =
          (view s.disk (s.inode e).din).data (off / BSIZE) := by
        simp only [view, if_neg hne]
      apply readiLoop_round hlt hne
      · intro hcopy
        cases hcopy
      generalize hm : min (n - tot) (BSIZE - off % BSIZE) = m
      rw [hdata, bytesFrom_data _ (by omega)]
      refine (ih (off + m) (tot + m) _ ?_ (by omega) (by omega)).mono ?_
      · intro bn hlo hhi
        apply hblocks bn _ (by omega)
        exact (Nat.div_le_div_right (Nat.le_add_right _ _)).trans hlo
      rintro r s' ⟨hs, hr⟩
      have hsplit : n - tot = m + (n - (tot + m)) := by omega
      refine ⟨hs, ?_⟩
      rw [hr, hsplit, range_add, map_append, map_map, append_assoc]
      congr 3
      apply map_congr_left
      intro j _
      simp only [comp_apply]
      congr 1
      omega
    · have hn : n = tot := by omega
      rw [hn, readiLoop_done (le_refl _), Nat.sub_self, range_zero, map_nil, append_nil, wp_pure]
      exact ⟨rfl, rfl⟩

theorem readi_bytes (hoff : off ≤ (s.inode e).din.size.toNat)
    (hwrap : off + n < 2 ^ 32) (hblocks : ∀ bn, off / BSIZE ≤ bn →
      bn * BSIZE < off + min n ((s.inode e).din.size.toNat - off) →
      blockAt s.disk (s.inode e).din bn ≠ 0) :
    Wp E (readi sb e (fun _ _ => true) off n) s fun r s' => s' = s ∧
      r = (((min n ((s.inode e).din.size.toNat - off) : Nat) : Int),
        (range (min n ((s.inode e).din.size.toNat - off))).map fun j =>
          (view s.disk (s.inode e).din).byte (off + j)) := by
  have hgo : ¬ ((s.inode e).din.size.toNat < off ∨ (off + n) % 2 ^ 32 < off) := by
    rw [mod_eq_of_lt hwrap]
    omega
  have hmin : (if (s.inode e).din.size.toNat < off + n then
      (s.inode e).din.size.toNat - off else n) = min n ((s.inode e).din.size.toNat - off) := by
    split_ifs <;> omega
  simp only [readi, wp_bind, wp_getInode, wp_ite, if_neg hgo, hmin]
  exact readiLoop_bytes _ _ _ 0 [] (by rwa [Nat.sub_zero]) (Nat.zero_le _) (sub_le _ _)

theorem readEntry_spec (h : Inv sb s t) (hr : 0 < (s.inode e).ref) (hv : (s.inode e).valid)
    {k : Nat} (hk : 16 * k < (s.inode e).din.size.toNat) :
    Wp (Allowed al) (readi sb e (fun _ _ => true) (16 * k) 16) s fun r s' => s' = s ∧
      (r.1 = 16 → 16 * k + 16 ≤ (s.inode e).din.size.toNat ∧
        direntOf r.2 = (view s.disk (s.inode e).din).entry k) ∧
      (r.1 ≠ 16 → (s.inode e).din.size.toNat < 16 * k + 16) := by
  have hsize := size_le_of_inv h hr hv
  have hmax : MAXFILE * BSIZE + 16 < 2 ^ 32 := by decide
  have hne : blockAt s.disk (s.inode e).din (16 * k / BSIZE) ≠ 0 := by
    apply noHole_of_inv h hr hv
    have := div_mul_le_self (16 * k) BSIZE
    omega
  have hmod : 16 * k % BSIZE + 16 ≤ BSIZE := by
    simp only [BSIZE]
    omega
  have hwrap : ¬ ((s.inode e).din.size.toNat < 16 * k ∨ (16 * k + 16) % 2 ^ 32 < 16 * k) := by
    rw [mod_eq_of_lt (by omega)]
    omega
  simp only [readi, wp_bind, wp_getInode, wp_ite, wp_pure, if_neg hwrap]
  generalize hn : (if (s.inode e).din.size.toNat < 16 * k + 16 then
    (s.inode e).din.size.toNat - 16 * k else 16) = n
  have hn' : 0 < n ∧ n ≤ 16 ∧ (n = 16 ↔ 16 * k + 16 ≤ (s.inode e).din.size.toNat) := by
    split_ifs at hn <;> omega
  obtain ⟨m, rfl⟩ : ∃ m, n = m + 1 := ⟨n - 1, by omega⟩
  have hmin : min (m + 1 - 0) (BSIZE - 16 * k % BSIZE) = m + 1 := by omega
  apply readiLoop_round (succ_pos m) hne
  · intro hcopy
    cases hcopy
  rw [hmin, readiLoop_done (by omega), wp_pure]
  refine ⟨rfl, ?_, ?_⟩
  · intro h16
    have hm : ((0 + (m + 1) : Nat) : Int) = 16 := h16
    have hm : m + 1 = 16 := by omega
    refine ⟨hn'.2.2.mp hm, ?_⟩
    have hblock : 16 * k / BSIZE = k / 64 := by
      simp only [BSIZE]
      omega
    rw [hblock] at hne ⊢
    rw [hm, nil_append, direntOf_bytesFrom]
    simp only [View.entry, view, if_neg hne]
  intro h16
  have hm : m + 1 ≠ 16 := by
    intro hm
    apply h16
    simp [hm]
  omega

end Read

section Write

variable {ino : Nat → Dinode} {i : Nat}

/-- Inode `i`, cached in entry `e`, may have gained blocks and its contents are now `data`. -/
structure Written (sb : Superblock) (s s' : State) (ino : Nat → Dinode) (e : Fin NINODE) (i : Nat)
    (ip' : Dinode) (data : Nat → Block) : Prop where
  img : Img sb s'.disk (update ino i ip')
  files : files sb s'.disk (update ino i ip') =
    update (files sb s.disk ino) i (some { view s.disk (ino i) with data := data })
  attrs : SameAttrs ip' (ino i)
  keep : ∀ bn, blockAt s.disk (ino i) bn ≠ 0 → blockAt s'.disk ip' bn ≠ 0
  inodes : ∀ b, b < sb.bmapstart → s'.disk b = s.disk b
  inode : s'.inode = update s.inode e { s.inode e with din := ip' }
  frame : Frame s s'

theorem Extended.written {ip' : Dinode} (h : Extended sb s s' ino e i ip')
    (hi : Allocated sb ino i) : Written sb s s' ino e i ip' (view s.disk (ino i)).data where
  img := h.img
  files := by
    rw [h.files, eq_comm, update_eq_self_iff]
    exact (files_of_allocated hi).symm
  attrs := h.attrs
  keep bn hbn := by
    rw [h.keep bn hbn]
    exact hbn
  inodes := h.inodes
  inode := h.inode
  frame := h.frame

section

variable {ip' : Dinode} {data : Nat → Block} (h : Written sb s s' ino e i ip' data)
  (hi : Allocated sb ino i)
include h hi

theorem Written.allocated : Allocated sb (update ino i ip') i :=
  (allocated_update sb h.attrs.type i).mpr hi

theorem Written.view_eq : view s'.disk ip' = { view s.disk (ino i) with data := data } := by
  have h1 : Fs.files sb s'.disk _ i = some _ := files_of_allocated (h.allocated hi)
  rw [h.files, update_self, update_self] at h1
  exact (Option.some.inj h1).symm

theorem Written.write {bn : Nat} (hbn : blockAt s'.disk ip' bn ≠ 0) (x : Block)
    {s'' : State} (hd : s''.disk = update s'.disk (blockAt s'.disk ip' bn).toNat x)
    (hinode : s''.inode = s'.inode) (hf : Frame s' s'') :
    Written sb s s'' ino e i ip' (update data bn x) ∧
      ∀ c, blockAt s''.disk ip' c = blockAt s'.disk ip' c := by
  have hself : update ino i ip' i = ip' := update_self ..
  have hal := h.allocated hi
  have hbn' : blockAt s'.disk (update ino i ip' i) bn ≠ 0 := by
    rw [hself]
    exact hbn
  have hd' : s''.disk = update s'.disk (blockAt s'.disk (update ino i ip' i) bn).toNat x := by
    rw [hself]
    exact hd
  obtain ⟨himg, hblocks, hfiles⟩ := h.img.write hal hbn' x hd'
  have hblock := hblocks i hal
  have hge := (h.img.blockAt_mem hal hbn').1
  rw [hself] at hblock hfiles hge
  refine ⟨⟨himg, ?_, h.attrs, ?_, ?_, hinode.trans h.inode, h.frame.trans hf⟩, hblock⟩
  · rw [hfiles, h.view_eq hi, h.files, update_idem]
  · intro c hc
    rw [hblock]
    exact h.keep c hc
  · intro b hb
    have := sb.bmapstart_lt
    rw [hd, update_of_ne (by omega), h.inodes b hb]

end

theorem Written.trans {s'' : State} {ip' ip'' : Dinode} {data data' : Nat → Block}
    (h : Written sb s s' ino e i ip' data) (hi : Allocated sb ino i)
    (h' : Written sb s' s'' (update ino i ip') e i ip'' data') :
    Written sb s s'' ino e i ip'' data' := by
  obtain ⟨himg, hfiles, hattrs, hkeep, hlow, hinode, hframe⟩ := h'
  rw [update_idem] at himg hfiles
  rw [update_self] at hfiles hattrs hkeep
  refine ⟨himg, ?_, ?_, fun bn hbn => hkeep bn (h.keep bn hbn),
    fun b hb => (hlow b hb).trans (h.inodes b hb), ?_, h.frame.trans hframe⟩
  · rw [hfiles, h.files, h.view_eq hi, update_idem]
  · exact h.attrs.trans hattrs
  · rw [hinode, h.inode, update_idem, update_self]

theorem writeiLoop_done {src : Source} (h : n ≤ tot) :
    writeiLoop sb e src n fuel off tot = pure (tot, off) := by
  cases fuel <;> simp [writeiLoop, not_lt.mpr h]

variable (h : Inv sb s t) (hr : 0 < (s.inode e).ref) (hv : (s.inode e).valid)
  (ho : 0 < s.outstanding)
include h hr hv ho

/-- The end of `writei`: the size is raised to `off` and the inode is written to the disk. -/
theorem writeiEnd_spec {s1 : State} {ip1 : Dinode} {data : Nat → Block}
    (hw : Written sb s s1 (dinodeAt sb s.disk) e (s.inode e).inum ip1 data)
    (hoff : off ≤ MAXFILE * BSIZE) (hblocks : ∀ bn, bn * BSIZE < off → blockAt s1.disk ip1 bn ≠ 0) :
    Wp (Allowed al) (setInode e fun ip =>
        if ip.din.size.toNat < off then { ip with din.size := ofNat off } else ip) s1
      fun _ s2 => Wp (Allowed al) (iupdate sb e) s2 fun _ s' =>
        Inv sb s' t ∧
        s'.files sb = update (s.files sb) (s.inode e).inum (some { view s.disk (s.inode e).din with
            size := max (s.inode e).din.size.toNat off, data := data }) ∧
        (∃ din, s'.inode = update s.inode e { s.inode e with din := din }) ∧
        Frame s s' := by
  obtain ⟨hd, htype⟩ := h.cached e hr hv
  have hal := h.allocated hr hv
  have hal1 := hw.allocated hal
  have hself : update (dinodeAt sb s.disk) (s.inode e).inum ip1 (s.inode e).inum = ip1 :=
    update_self ..
  have hent : s1.inode e = { s.inode e with din := ip1 } := by
    rw [hw.inode, update_self]
  generalize hz : (if ip1.size.toNat < off then ofNat off else ip1.size) = z
  have hzn : z.toNat = max (s.inode e).din.size.toNat off := by
    have hmax : MAXFILE * BSIZE < 2 ^ 32 := by decide
    rw [hd, ← hw.attrs.size, ← hz]
    split_ifs with hlt
    · rw [toNat_ofNat_of_lt' (lt_of_le_of_lt hoff hmax)]
      omega
    · omega
  have hset : (if (s1.inode e).din.size.toNat < off then
      { s1.inode e with din.size := ofNat off } else s1.inode e) =
        { s.inode e with din := { ip1 with size := z } } := by
    rw [hent, ← hz]
    split_ifs <;> rfl
  rw [wp_setInode, hset]
  simp only [iupdate, wp_bind, wp_getInode, wp_bread, setIp_inode_self, setIp_disk]
  refine (logWrite_spec _ _ (by rw [setIp_outstanding, hw.frame.outstanding]; exact ho)).mono ?_
  rintro _ s' ⟨hd', hi', hf'⟩
  have hdisk : s'.disk = putDinode sb s1.disk (s.inode e).inum { ip1 with size := z } := hd'
  have hsz : ({ ip1 with size := z } : Dinode).size.toNat = max (s.inode e).din.size.toNat off := hzn
  have hhole : ∀ bn, bn * BSIZE < ({ ip1 with size := z } : Dinode).size.toNat →
      blockAt s1.disk (update (dinodeAt sb s.disk) (s.inode e).inum ip1 (s.inode e).inum)
        bn ≠ 0 := by
    intro bn hbn
    rw [hsz] at hbn
    rw [hself]
    cases lt_max_iff.mp hbn with
    | inl hbn =>
      apply hw.keep
      rw [← hd]
      exact noHole_of_inv h hr hv bn hbn
    | inr hbn => exact hblocks bn hbn
  obtain ⟨himg1, hfiles1⟩ := hw.img.setAttrs hal1 (by rw [hself]) (by rw [hself])
    (hsz.trans_le (max_le (size_le_of_inv h hr hv) hoff)) hhole
  rw [update_idem] at himg1 hfiles1
  obtain ⟨himg2, hfiles2⟩ := himg1.putDinode hal.1 hdisk
  have hinode : s'.inode = update s.inode e { s.inode e with din := { ip1 with size := z } } := by
    rw [hi', State.setIp, hw.inode, update_idem]
  obtain ⟨hinv, hfiles3⟩ := h.change hr hv himg2 (dinodeAt_putDinode sb s.disk hdisk fun j hj _ =>
    dinodeAt_congr sb s.disk (hw.inodes _ (sb.iblock_lt hj)))
    hinode (hf'.file.trans hw.frame.file) (by rw [hd]; exact hw.attrs.type)
  refine ⟨hinv, ?_, ⟨_, hinode⟩, (hw.frame.trans (.setIp ..)).trans hf'⟩
  have hview : view s1.disk { ip1 with size := z } = { view s.disk (s.inode e).din with
        size := max (s.inode e).din.size.toNat off, data := data } := by
    have hv1 := hw.view_eq hal
    rw [← hd] at hv1
    rw [← hzn]
    calc view s1.disk { ip1 with size := z } = { view s1.disk ip1 with size := z.toNat } := rfl
      _ = _ := by rw [hv1]
  rw [hfiles3, hfiles2, hfiles1, hview, hw.files, update_idem]
  rfl

omit h hr hv ho in
theorem storeBytes_dirent (data : Block) (k : Nat) (de : Dirent) :
    storeBytes data (16 * k % BSIZE) 16 (fun j => (direntSource de).byte (0 + j)) =
      dirent.put data (k % 64) de := by
  funext j
  have hj := j.isLt
  simp only [storeBytes, direntSource, Source.kernel, Codec.put, BSIZE, Nat.zero_add] at *
  by_cases hin : j.val / 16 = k % 64
  · have hlt : j.val - 16 * k % 1024 < 16 := by omega
    rw [if_pos (by omega), if_pos hin, dif_pos hlt]
    congr 1
    apply Fin.ext
    change j.val - 16 * k % 1024 = j.val % 16
    omega
  · rw [if_neg (by omega), if_neg hin]

theorem truncate_spec :
    Wp (Allowed al) (itrunc sb e) s fun _ s' =>
      Inv sb s' t ∧
      s'.files sb = update (s.files sb) (s.inode e).inum
        (some (view s.disk (s.inode e).din).empty) ∧
      (∃ din, s'.inode = update s.inode e { s.inode e with din := din }) ∧ Frame s s' := by
  obtain ⟨hd, -⟩ := h.cached e hr hv
  refine (itrunc_spec h.img (h.allocated hr hv) hd rfl ho).mono ?_
  rintro _ s' ⟨himg, hfiles, hinode, hino, hframe⟩
  obtain ⟨hinv, hfiles'⟩ := h.change hr hv himg hino hinode hframe.file (by rw [hd]; rfl)
  refine ⟨hinv, ?_, ⟨_, hinode⟩, hframe⟩
  rw [hfiles', hfiles, hd]
  rfl

end Write

end Xv6.Fs
