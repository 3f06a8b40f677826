import Xv6.Kernel.Fs.Buffers

namespace Xv6.Fs

open ByteCodec Hoare Function List Nat

/-- The bytes of consecutive blocks. -/
def flat (data : Nat → Block) (k : Nat) : UInt8 := data (k / BSIZE) (Fin.ofNat BSIZE k)

/-- The bytes `f` with `m` of them from `off` on replaced by `g 0`, `g 1`, ... -/
def patch (f : Nat → UInt8) (off m : Nat) (g : Nat → UInt8) (k : Nat) : UInt8 :=
  if off ≤ k ∧ k < off + m then g (k - off) else f k

variable {off m k : Nat} {g : Nat → UInt8}

theorem patch_in {f : Nat → UInt8} (h : off ≤ k) (h' : k < off + m) :
    patch f off m g k = g (k - off) := if_pos ⟨h, h'⟩

theorem patch_out {f : Nat → UInt8} (h : k < off ∨ off + m ≤ k) :
    patch f off m g k = f k := if_neg (by omega)

theorem patch_zero (f : Nat → UInt8) (off : Nat) (g : Nat → UInt8) : patch f off 0 g = f := by
  funext k
  exact patch_out (by omega)

theorem patch_patch (f : Nat → UInt8) (off m l : Nat) (g : Nat → UInt8) :
    patch (patch f off m g) (off + m) l (fun j => g (m + j)) = patch f off (m + l) g := by
  funext k
  by_cases hlow : k < off + m
  · rw [patch_out (.inl hlow)]
    by_cases hin : off ≤ k
    · rw [patch_in hin hlow, patch_in hin (by omega)]
    · rw [patch_out (by omega), patch_out (by omega)]
  · by_cases hin : k < off + m + l
    · rw [patch_in (by omega) hin, patch_in (by omega) (by omega)]
      congr 1
      omega
    · rw [patch_out (by omega), patch_out (by omega), patch_out (by omega)]

theorem flat_store (data : Nat → Block) (hm : m ≤ BSIZE - off % BSIZE) (g : Nat → UInt8) :
    flat (update data (off / BSIZE)
      (storeBytes (data (off / BSIZE)) (off % BSIZE) m g)) = patch (flat data) off m g := by
  funext k
  have hval : (Fin.ofNat BSIZE k).val = k % BSIZE := rfl
  by_cases hblock : k / BSIZE = off / BSIZE
  · unfold flat patch
    rw [hblock, update_self]
    simp only [storeBytes, hval]
    have hk := div_add_mod' k BSIZE
    have hoff := div_add_mod' off BSIZE
    rw [hblock] at hk
    have hiff : (off % BSIZE ≤ k % BSIZE ∧ k % BSIZE < off % BSIZE + m) ↔
        (off ≤ k ∧ k < off + m) := by omega
    have hsub : k % BSIZE - off % BSIZE = k - off := by omega
    simp only [hiff, hsub, hblock]
  have hout : k < off ∨ off + m ≤ k := by
    unfold BSIZE at *
    omega
  rw [patch_out hout]
  unfold flat
  rw [update_of_ne hblock]

theorem flat_block (data : Nat → Block) (bn : Nat) (x : Fin BSIZE) :
    flat data (bn * BSIZE + x.val) = data bn x := by
  have hx := x.isLt
  have hdiv : (bn * BSIZE + x.val) / BSIZE = bn := by
    unfold BSIZE at *
    omega
  have hfin : Fin.ofNat BSIZE (bn * BSIZE + x.val) = x := by
    apply Fin.ext
    change (bn * BSIZE + x.val) % BSIZE = x.val
    rw [mul_add_mod_self_right, mod_eq_of_lt hx]
  rw [flat, hdiv, hfin]

theorem flat_inj {f g : Nat → Block} (h : flat f = flat g) : f = g := by
  funext bn x
  rw [← flat_block f, ← flat_block g, h]

theorem storeBytes_zero (data : Block) (off : Nat) (f : Nat → UInt8) :
    storeBytes data off 0 f = data := by
  funext j
  exact if_neg (by omega)

variable {sb : Superblock} {al : Known} {s s' : State} {t : Fin NINODE → Nat} {e : Fin NINODE}
  {ino : Nat → Dinode} {i : Nat}

/-- All there is to know about a call of `bmap`. -/
structure BlockFound (sb : Superblock) (s s' : State) (ino : Nat → Dinode) (e : Fin NINODE) (i bn : Nat)
    (r : UInt32) (ip' : Dinode) : Prop where
  ext : Extended sb s s' ino e i ip'
  mapped : Mapped sb s s' (ino i) bn r
  tracked : Tracked s s'
  block : r ≠ 0 → blockAt s'.disk ip' bn = r
  missing : r = 0 → blockAt s.disk (ino i) bn = 0
  others : ∀ bm, bm ≠ bn → blockAt s'.disk ip' bm = blockAt s.disk (ino i) bm

variable {bn : Nat}

theorem bmap_blockFound (h : Img sb s.disk ino) (hi : Allocated sb ino i)
    (he : (s.inode e).din = ino i) (ho : 0 < s.outstanding) (hbn : bn < MAXFILE) :
    Wp (Allowed al) (bmap sb e bn) s fun r s' => ∃ ip', BlockFound sb s s' ino e i bn r ip' := by
  have hmiss : Wp Any (bmap sb e bn) s fun r _ =>
      r = 0 → blockAt s.disk (ino i) bn = 0 := by
    by_cases hne : blockAt s.disk (s.inode e).din bn = 0
    · rw [he] at hne
      have htrue : Wp Any (bmap sb e bn) s fun _ _ => True :=
        ((bmap_tracked bn).wp s).mono fun _ _ _ => trivial
      exact htrue.mono fun _ _ _ _ => hne
    · refine (bmap_read hne).mono ?_
      rintro r s' ⟨rfl, -⟩ h0
      exact absurd h0 hne
  have hmap := ((bmap_mapped h hi he ho hbn).and ((bmap_tracked bn).wp s)).and hmiss
  refine (((bmap_spec h hi he ho hbn).and (bmap_others h hi he ho hbn)).besides hmap).mono ?_
  rintro r s' ⟨⟨⟨ip', hext, hblock⟩, hothers⟩, ⟨hmapped, htracked⟩, hmissing⟩
  have hdin : (s'.inode e).din = ip' := by rw [hext.inode, update_self]
  rw [hdin] at hothers
  exact ⟨ip', hext, hmapped, htracked, hblock, hmissing, hothers⟩

variable {ip' : Dinode} {r : UInt32}

section

variable (h : BlockFound sb s s' ino e i bn r ip') (hi : Allocated sb ino i) (hr : r ≠ 0)
include h hi hr

theorem BlockFound.data_eq : s'.disk r.toNat = (view s.disk (ino i)).data bn := by
  have hne : blockAt s'.disk ip' bn ≠ 0 := by
    rw [h.block hr]
    exact hr
  have hview : (view s'.disk ip').data bn = s'.disk r.toNat := by
    rw [← h.block hr]
    exact if_neg hne
  rw [← hview, (h.ext.written hi).view_eq hi]

/-- Bytes in the range of the piece that a round of `writei` copies. -/
def piece (n off tot : Nat) : Nat := min (n - tot) (BSIZE - off % BSIZE)

/-- A round of `writei` has written block `bn`. -/
structure BlockWritten (sb : Superblock) (s s' : State) (ino : Nat → Dinode) (e : Fin NINODE)
    (i bn : Nat) (ip' : Dinode) (data : Nat → Block) : Prop where
  written : Written sb s s' ino e i ip' data
  block : blockAt s'.disk ip' bn ≠ 0
  same : ∀ bm, blockAt s.disk (ino i) bm ≠ 0 → blockAt s'.disk ip' bm = blockAt s.disk (ino i) bm
  others : ∀ bm, bm ≠ bn → blockAt s'.disk ip' bm = blockAt s.disk (ino i) bm
  tracked : Tracked s s'
  spared : ∀ bm, bm ≠ bn → blockAt s.disk (ino i) bm ≠ 0 →
    (blockAt s.disk (ino i) bm).toNat ∈ s'.lh → (blockAt s.disk (ino i) bm).toNat ∈ s.lh

theorem BlockFound.blockWritten (x : Block) {s'' : State}
    (hd : s''.disk = update s'.disk r.toNat x) (hlh : s''.lh = Log.absorb s'.lh r.toNat)
    (hinode : s''.inode = s'.inode) (hf : Frame s' s'') :
    BlockWritten sb s s'' ino e i bn ip' (update (view s.disk (ino i)).data bn x) := by
  have hne : blockAt s'.disk ip' bn ≠ 0 := by
    rw [h.block hr]
    exact hr
  have hw := h.ext.written hi
  obtain ⟨hw2, hblock⟩ := hw.write hi hne x (by rw [h.block hr]; exact hd) hinode hf
  have htracked : Tracked s' s'' := by
    refine ⟨fun b hb => ?_, fun b hb => ?_⟩
    · rw [hlh, Log.mem_absorb]
      exact .inl hb
    · rw [hlh, Log.mem_absorb, not_or] at hb
      rw [hd, update_of_ne hb.2]
  refine ⟨hw2, by rw [hblock]; exact hne, ?_, ?_, IsTrans.trans _ _ _ h.tracked htracked, ?_⟩
  · intro bm hbm
    rw [hblock, h.ext.keep bm hbm]
  · intro bm hbm
    rw [hblock, h.others bm hbm]
  intro bm hbm hold hmem
  rw [hlh, Log.mem_absorb] at hmem
  apply h.mapped.spared bm hold
  refine hmem.resolve_right fun heq => hbm ?_
  -- two blocks of one file are different
  have hself : update ino i ip' i = ip' := update_self ..
  have hal := hw.allocated hi
  have heq' : blockAt s'.disk (update ino i ip' i) bm =
      blockAt s'.disk (update ino i ip' i) bn := by
    rw [hself, h.ext.keep bm hold, h.block hr]
    exact UInt32.toNat_inj.mp heq
  rw [blockAt_eq_slot, blockAt_eq_slot] at heq'
  rw [← hself, blockAt_eq_slot] at hne
  exact slotOf_inj (h.ext.img.slot_inj hal hal hne heq').2

end

/-- One round of `writei`: no block is left, the copy fails, or a block is written. -/
theorem writeiLoop_step (h : Img sb s.disk ino) (hi : Allocated sb ino i)
    (he : (s.inode e).din = ino i) (ho : 0 < s.outstanding) {src : Source} {n fuel tot : Nat}
    {Q : Nat × Nat → State → Prop} (htot : tot < n) (hoff : off / BSIZE < MAXFILE)
    (hfull : ∀ s' ip', BlockFound sb s s' ino e i (off / BSIZE) 0 ip' → Q (tot, off) s')
    (hbad : ∀ s' ip' r, BlockFound sb s s' ino e i (off / BSIZE) r ip' → r ≠ 0 →
      src.good tot (piece n off tot) < piece n off tot →
      Q (tot, off) { s' with disk := update s'.disk r.toNat (storeBytes
        ((view s.disk (ino i)).data (off / BSIZE)) (off % BSIZE)
        (src.good tot (piece n off tot)) fun j => src.byte (tot + j)) })
    (hgo : ∀ s' ip', piece n off tot ≤ src.good tot (piece n off tot) →
      BlockWritten sb s s' ino e i (off / BSIZE) ip'
        (update (view s.disk (ino i)).data (off / BSIZE)
          (storeBytes ((view s.disk (ino i)).data (off / BSIZE)) (off % BSIZE)
            (piece n off tot) fun j => src.byte (tot + j))) →
      Wp (Allowed al) (writeiLoop sb e src n fuel (off + piece n off tot)
        (tot + piece n off tot)) s' Q) :
    Wp (Allowed al) (writeiLoop sb e src n (fuel + 1) off tot) s Q := by
  unfold piece at *
  simp only [writeiLoop, if_pos htot, wp_bind, wp_ite, wp_bread, wp_pure, wp_modify]
  refine (bmap_blockFound h hi he ho hoff).mono ?_
  rintro r s1 ⟨ip1, hfound⟩
  by_cases h0 : r = 0
  · rw [if_pos h0]
    rw [h0] at hfound
    exact hfull s1 ip1 hfound
  rw [if_neg h0, hfound.data_eq hi h0]
  generalize hm : min (n - tot) (BSIZE - off % BSIZE) = m at *
  split_ifs with hgot
  · have hmin : min m (src.good tot m) = src.good tot m := by omega
    rw [hmin]
    exact hbad s1 ip1 r hfound h0 (by omega)
  have hmin : min m (src.good tot m) = m := by omega
  rw [hmin]
  have hout := hfound.ext.frame.pos ho
  refine ((logWrite_spec _ _ hout).besides (logWrite_logs _ _)).mono ?_
  rintro _ s2 ⟨⟨hd2, hi2, hf2⟩, hlh2, -⟩
  exact hgo s2 ip1 (by omega) (hfound.blockWritten hi h0 _ hd2 hlh2 hi2 hf2)

/-- What the loop of `writei` has done when it ends with `r`: `r.1` bytes are written, and if a copy
failed, `got` bytes more are in the buffer of the next block, which is then not logged. -/
structure Poured (sb : Superblock) (s s' : State) (ino : Nat → Dinode) (e : Fin NINODE) (i : Nat)
    (src : Source) (n off tot : Nat) (r : Nat × Nat) (ip' : Dinode) (data : Nat → Block) (got : Nat) :
    Prop where
  written : Written sb s s' ino e i ip' data
  ge : tot ≤ r.1
  le : r.1 ≤ n
  offset : r.2 = off + (r.1 - tot)
  below : ∀ bn, bn * BSIZE < r.2 → blockAt s'.disk ip' bn ≠ 0
  bytes : flat data = patch (flat (view s.disk (ino i)).data) off (r.1 - tot + got)
    fun j => src.byte (tot + j)
  aligned : r.1 < n → r.1 = tot ∨ r.2 % BSIZE = 0
  copied : ∀ k, tot ≤ k → k < r.1 → ∃ p, tot ≤ p ∧ p ≤ k ∧
    k < p + piece n (off + (p - tot)) p ∧ piece n (off + (p - tot)) p ≤
      src.good p (piece n (off + (p - tot)) p)
  ending : got = 0 ∧ (r.1 = n ∨
      Full sb s'.disk ∧ blockAt s.disk (ino i) (r.2 / BSIZE) = 0) ∨
    r.1 < n ∧ got = src.good r.1 (piece n r.2 r.1) ∧ got < piece n r.2 r.1
  same : ∀ bm, blockAt s.disk (ino i) bm ≠ 0 → blockAt s'.disk ip' bm = blockAt s.disk (ino i) bm
  logged : ∀ b, b ∈ s.lh → b ∈ s'.lh
  tracked : ∀ b, b ∉ s'.lh → (got ≠ 0 → b ≠ (blockAt s'.disk ip' (r.2 / BSIZE)).toNat) →
    s'.disk b = s.disk b
  fresh : got ≠ 0 → blockAt s.disk (ino i) (r.2 / BSIZE) = 0 →
    (blockAt s'.disk ip' (r.2 / BSIZE)).toNat ∈ s'.lh
  spared : got ≠ 0 → blockAt s.disk (ino i) (r.2 / BSIZE) ≠ 0 →
    (blockAt s.disk (ino i) (r.2 / BSIZE)).toNat ∈ s'.lh →
    (blockAt s.disk (ino i) (r.2 / BSIZE)).toNat ∈ s.lh

section Loop

variable {src : Source} {n off tot : Nat}

theorem Poured.stop (hx : Extended sb s s' ino e i ip') (ht : Tracked s s')
    (hi : Allocated sb ino i) (htot : tot ≤ n)
    (hend : tot = n ∨ Full sb s'.disk ∧ blockAt s.disk (ino i) (off / BSIZE) = 0)
    (hbelow : ∀ bn, bn * BSIZE < off → blockAt s.disk (ino i) bn ≠ 0) :
    Poured sb s s' ino e i src n off tot (tot, off) ip' (view s.disk (ino i)).data 0 where
  written := hx.written hi
  ge := le_rfl
  le := htot
  offset := by omega
  below bn hbn := by
    rw [hx.keep bn (hbelow bn hbn)]
    exact hbelow bn hbn
  bytes := by rw [Nat.sub_self, patch_zero]
  aligned _ := .inl rfl
  copied k hge hlt := absurd hge (not_le.mpr hlt)
  ending := .inl ⟨rfl, hend⟩
  same := hx.keep
  logged := ht.logged
  tracked b hb _ := ht.same b hb
  fresh h := absurd rfl h
  spared h := absurd rfl h

theorem Poured.bad (hf : BlockFound sb s s' ino e i (off / BSIZE) r ip') (hi : Allocated sb ino i)
    (htot : tot < n) (hr : r ≠ 0) (hgood : src.good tot (piece n off tot) < piece n off tot)
    (hbelow : ∀ bn, bn * BSIZE < off → blockAt s.disk (ino i) bn ≠ 0) :
    Poured sb s { s' with disk := update s'.disk r.toNat (storeBytes
        ((view s.disk (ino i)).data (off / BSIZE)) (off % BSIZE)
        (src.good tot (piece n off tot)) fun j => src.byte (tot + j)) }
      ino e i src n off tot (tot, off) ip'
      (update (view s.disk (ino i)).data (off / BSIZE) (storeBytes
        ((view s.disk (ino i)).data (off / BSIZE)) (off % BSIZE)
        (src.good tot (piece n off tot)) fun j => src.byte (tot + j)))
      (src.good tot (piece n off tot)) := by
  have hne : blockAt s'.disk ip' (off / BSIZE) ≠ 0 := by
    rw [hf.block hr]
    exact hr
  generalize hx : storeBytes ((view s.disk (ino i)).data (off / BSIZE)) (off % BSIZE)
    (src.good tot (piece n off tot)) (fun j => src.byte (tot + j)) = x
  have hd : ({ s' with disk := update s'.disk r.toNat x } : State).disk =
      update s'.disk (blockAt s'.disk ip' (off / BSIZE)).toNat x := by
    rw [hf.block hr]
  obtain ⟨hw, hblock⟩ := (hf.ext.written hi).write hi hne x hd rfl
    ⟨rfl, rfl, rfl, rfl, rfl, rfl, rfl, rfl⟩
  have haddr : blockAt (update s'.disk r.toNat x) ip' (off / BSIZE) = r :=
    (hblock _).trans (hf.block hr)
  refine ⟨hw, le_rfl, htot.le, by omega, ?_, ?_, fun _ => .inl rfl,
    fun k hge hlt => absurd hge (not_le.mpr hlt), .inr ⟨htot, rfl, hgood⟩, ?_, hf.tracked.logged,
    ?_, ?_, ?_⟩
  · intro bn hbn
    rw [hblock, hf.ext.keep bn (hbelow bn hbn)]
    exact hbelow bn hbn
  · have hle : src.good tot (piece n off tot) ≤ BSIZE - off % BSIZE := by
      unfold piece at *
      omega
    rw [← hx, flat_store _ hle, Nat.sub_self, Nat.zero_add]
  · intro bm hbm
    rw [hblock, hf.ext.keep bm hbm]
  · intro b hb hexc
    by_cases h0 : src.good tot (piece n off tot) = 0
    · have hsame : update s'.disk r.toNat x = s'.disk := by
        rw [← hx, h0, storeBytes_zero, ← hf.data_eq hi hr, update_eq_self]
      change update s'.disk r.toNat x b = _
      rw [hsame]
      exact hf.tracked.same b hb
    have hb' : b ≠ r.toNat := by
      have := hexc h0
      rwa [haddr] at this
    change update s'.disk r.toNat x b = _
    rw [update_of_ne hb']
    exact hf.tracked.same b hb
  · intro _ hz
    change (blockAt (update s'.disk r.toNat x) ip' (off / BSIZE)).toNat ∈ s'.lh
    rw [haddr]
    exact hf.mapped.fresh hr hz
  · intro _ hold hmem
    exact hf.mapped.spared _ hold hmem

theorem lt_block_of_lt {r : Nat × Nat} (hge : tot + piece n off tot ≤ r.1)
    (hoff : r.2 = off + piece n off tot + (r.1 - (tot + piece n off tot))) (hlt : r.1 < n) :
    r.2 / BSIZE ≠ off / BSIZE := by
  unfold piece BSIZE at *
  omega

theorem Poured.round {s1 : State} {ip1 : Dinode} {data1 data : Nat → Block} {r : Nat × Nat}
    {got : Nat} (hi : Allocated sb ino i) (htot : tot < n)
    (hgood : piece n off tot ≤ src.good tot (piece n off tot))
    (hw : BlockWritten sb s s1 ino e i (off / BSIZE) ip1 data1)
    (hdata1 : flat data1 = patch (flat (view s.disk (ino i)).data) off (piece n off tot)
      fun j => src.byte (tot + j))
    (hp : Poured sb s1 s' (update ino i ip1) e i src n (off + piece n off tot)
      (tot + piece n off tot) r ip' data got) :
    Poured sb s s' ino e i src n off tot r ip' data got := by
  obtain ⟨hwritten, hge, hle, hoffset, hbelow, hbytes, haligned, hcopied, hending, hsame, hlogged,
    htracked, hfresh, hspared⟩ := hp
  rw [update_self] at hsame hfresh hspared hbytes hending
  rw [hw.written.view_eq hi] at hbytes
  have hnext : got ≠ 0 → r.2 / BSIZE ≠ off / BSIZE := by
    intro hgot
    rcases hending with ⟨h0, -⟩ | ⟨hlt, -, -⟩
    · exact absurd h0 hgot
    · exact lt_block_of_lt hge hoffset hlt
  have hsame' : ∀ bm, blockAt s.disk (ino i) bm ≠ 0 →
      blockAt s'.disk ip' bm = blockAt s.disk (ino i) bm := by
    intro bm hbm
    have h1 := hw.same bm hbm
    rw [hsame bm (by rw [h1]; exact hbm), h1]
  refine ⟨hw.written.trans hi hwritten, by omega, hle, by omega, hbelow, ?_, ?_, ?_, ?_, hsame',
    fun b hb => hlogged b (hw.tracked.logged b hb), ?_, ?_, ?_⟩
  · have hlen : r.1 - tot + got = piece n off tot + (r.1 - (tot + piece n off tot) + got) := by
      omega
    have hpatch := patch_patch (flat (view s.disk (ino i)).data) off (piece n off tot)
      (r.1 - (tot + piece n off tot) + got) fun j => src.byte (tot + j)
    rw [hlen, ← hpatch, ← hdata1, hbytes]
    simp only [Nat.add_assoc]
  · intro hlt
    right
    rcases haligned hlt with heq | hal
    · unfold piece BSIZE at *
      omega
    · exact hal
  · intro k hk hlt
    by_cases hfirst : k < tot + piece n off tot
    · exact ⟨tot, le_rfl, hk, by rwa [Nat.sub_self, Nat.add_zero], by rwa [Nat.sub_self, Nat.add_zero]⟩
    · obtain ⟨p, hp, hpk, hkp, hcopy⟩ := hcopied k (by omega) hlt
      have hoff : off + piece n off tot + (p - (tot + piece n off tot)) = off + (p - tot) := by
        omega
      rw [hoff] at hkp hcopy
      exact ⟨p, by omega, hpk, hkp, hcopy⟩
  · rcases hending with ⟨h0, hn | ⟨hfull, hmiss⟩⟩ | hbad
    · exact .inl ⟨h0, .inl hn⟩
    · by_cases hn : r.1 = n
      · exact .inl ⟨h0, .inl hn⟩
      · rw [hw.others _ (lt_block_of_lt hge hoffset (by omega))] at hmiss
        exact .inl ⟨h0, .inr ⟨hfull, hmiss⟩⟩
    · exact .inr hbad
  · intro b hb hexc
    rw [htracked b hb hexc]
    exact hw.tracked.same b fun hmem => hb (hlogged b hmem)
  · intro hgot hz
    rw [← hw.others _ (hnext hgot)] at hz
    exact hfresh hgot hz
  intro hgot hold hmem
  have h1 := hw.same _ hold
  apply hw.spared _ (hnext hgot) hold
  have := hspared hgot (by rw [h1]; exact hold)
  rw [h1] at this
  exact this hmem

theorem writeiLoop_poured (h : Img sb s.disk ino) (hi : Allocated sb ino i)
    (he : (s.inode e).din = ino i) (ho : 0 < s.outstanding) (fuel : Nat) (htot : tot ≤ n)
    (hoff : off + (n - tot) ≤ MAXFILE * BSIZE) (hfuel : n - tot ≤ fuel)
    (hbelow : ∀ bn, bn * BSIZE < off → blockAt s.disk (ino i) bn ≠ 0) :
    Wp (Allowed al) (writeiLoop sb e src n fuel off tot) s fun r s' =>
      ∃ ip' data got, Poured sb s s' ino e i src n off tot r ip' data got := by
  have hdone : tot = n → ∃ ip' data got, Poured sb s s ino e i src n off tot (tot, off) ip' data got :=
    fun hn => ⟨_, _, _, .stop (.stay h he rfl rfl (.refl s)) ⟨fun _ hb => hb, fun _ _ => rfl⟩ hi htot
      (.inl hn) hbelow⟩
  induction fuel generalizing s ino off tot with
  | zero =>
    rw [writeiLoop_done (by omega)]
    exact hdone (by omega)
  | succ fuel ih =>
    by_cases hlt : tot < n
    · have hblock : off / BSIZE < MAXFILE := Nat.div_lt_of_lt_mul (by rw [Nat.mul_comm]; omega)
      apply writeiLoop_step h hi he ho hlt hblock
      · intro s' ip' hf
        exact ⟨_, _, _, .stop hf.ext hf.tracked hi htot
          (.inr ⟨hf.mapped.full rfl, hf.missing rfl⟩) hbelow⟩
      · intro s' ip' r hf hr hgood
        exact ⟨_, _, _, .bad hf hi hlt hr hgood hbelow⟩
      intro s1 ip1 hgood hw
      have hself : update ino i ip1 i = ip1 := update_self ..
      have he1 : (s1.inode e).din = update ino i ip1 i := by
        rw [hw.written.inode, update_self, hself]
      have hmod : off % BSIZE < BSIZE := mod_lt _ (by decide)
      have hpiece : 0 < piece n off tot ∧ piece n off tot ≤ n - tot ∧
          piece n off tot ≤ BSIZE - off % BSIZE := by
        unfold piece
        omega
      have hbelow1 : ∀ bn, bn * BSIZE < off + piece n off tot →
          blockAt s1.disk (update ino i ip1 i) bn ≠ 0 := by
        intro bn hbn
        rw [hself]
        by_cases hlow : bn * BSIZE < off
        · rw [hw.same bn (hbelow bn hlow)]
          exact hbelow bn hlow
        · have heq : bn = off / BSIZE := by
            unfold BSIZE at *
            omega
          rw [heq]
          exact hw.block
      refine (ih hw.written.img (hw.written.allocated hi) he1
        (by rw [hw.written.frame.outstanding]; exact ho) (by omega) (by omega) (by omega) hbelow1
        fun hn => ⟨_, _, _, .stop (.stay hw.written.img he1 rfl rfl (.refl s1))
          ⟨fun _ hb => hb, fun _ _ => rfl⟩ (hw.written.allocated hi) (by omega) (.inl hn)
          hbelow1⟩).mono ?_
      rintro r s' ⟨ip', data, got, hp⟩
      exact ⟨ip', data, got, hp.round hi hlt hgood hw (flat_store _ hpiece.2.2 _)⟩
    · rw [writeiLoop_done (by omega)]
      exact hdone (by omega)

end Loop

/-- `writei` refuses a range that starts behind the end, wraps around or does not fit in a file. -/
def Refused (size off n : Nat) : Prop :=
  size < off ∨ (off + n) % 2 ^ 32 < off ∨ MAXFILE * BSIZE < off + n

instance (size off n : Nat) : Decidable (Refused size off n) :=
  inferInstanceAs (Decidable (_ ∨ _ ∨ _))

/-- What `writei` has done when it returns `tot`; `s1` is the state after its loop. -/
structure WriteDone (sb : Superblock) (t : Fin NINODE → Nat) (s s' : State) (e : Fin NINODE)
    (src : Source) (n off tot : Nat) (s1 : State) (ip1 : Dinode) (data : Nat → Block) (got : Nat) :
    Prop where
  poured : Poured sb s s1 (dinodeAt sb s.disk) e (s.inode e).inum src n off 0 (tot, off + tot) ip1
    data got
  inv : Inv sb s' t
  files : s'.files sb = update (s.files sb) (s.inode e).inum
    (some { view s.disk (s.inode e).din with
      size := max (s.inode e).din.size.toNat (off + tot), data := data })
  inode : ∃ din, s'.inode = update s.inode e { s.inode e with din := din }
  frame : Frame s s'
  lh : s'.lh = Log.absorb s1.lh (sb.iblock (s.inode e).inum)
  disk : ∀ b, b ≠ sb.iblock (s.inode e).inum → s'.disk b = s1.disk b

theorem writei_done (h : Inv sb s t) (hr : 0 < (s.inode e).ref) (hv : (s.inode e).valid)
    (ho : 0 < s.outstanding) (src : Source) (off n : Nat) :
    Wp (Allowed al) (writei sb e src off n) s fun r s' =>
      Refused (s.inode e).din.size.toNat off n ∧ r = -1 ∧ s' = s ∨
      ¬ Refused (s.inode e).din.size.toNat off n ∧ ∃ tot s1 ip1 data got, r = ((tot : Nat) : Int) ∧
        WriteDone sb t s s' e src n off tot s1 ip1 data got := by
  obtain ⟨hd, -⟩ := h.cached e hr hv
  simp only [writei, wp_bind, wp_getInode, wp_ite, wp_pure]
  split_ifs with h1 h2
  · exact .inl ⟨h1.elim .inl fun hw => .inr (.inl hw), trivial, trivial⟩
  · exact .inl ⟨.inr (.inr h2), trivial, trivial⟩
  have hgo : ¬ Refused (s.inode e).din.size.toNat off n := by
    rintro (hlt | hwrap | hmax)
    · exact h1 (.inl hlt)
    · exact h1 (.inr hwrap)
    · exact h2 hmax
  have hbelow : ∀ bn, bn * BSIZE < off →
      blockAt s.disk (dinodeAt sb s.disk (s.inode e).inum) bn ≠ 0 := by
    intro bn hbn
    rw [← hd]
    exact noHole_of_inv h hr hv bn (by omega)
  refine (writeiLoop_poured h.img (h.allocated hr hv) hd ho n (Nat.zero_le n) (by omega) (by omega)
    hbelow).mono ?_
  rintro ⟨tot, off'⟩ s1 ⟨ip1, data, got, hp⟩
  have hoff' : off' = off + tot := by
    have := hp.offset
    simpa using this
  rw [hoff'] at hp ⊢
  have hmax : off + tot ≤ MAXFILE * BSIZE := by
    have := hp.le
    simp only at this
    omega
  have hinum : (s1.inode e).inum = (s.inode e).inum := by
    rw [hp.written.inode, update_self]
  have hset : Wp (Allowed al) (setInode e fun ip => if ip.din.size.toNat < off + tot then
      { ip with din.size := UInt32.ofNat (off + tot) } else ip) s1 fun _ s2 =>
        s2.lh = s1.lh ∧ s2.disk = s1.disk ∧ (s2.inode e).inum = (s.inode e).inum := by
    rw [wp_setInode, setIp_inode_self, ← hinum]
    refine ⟨rfl, rfl, ?_⟩
    split_ifs <;> rfl
  refine ((writeiEnd_spec h hr hv ho hp.written hmax hp.below).and hset).mono ?_
  rintro _ s2 ⟨hend, hlh2, hd2, hinum2⟩
  refine (hend.besides iupdate_logs).mono ?_
  rintro _ s' ⟨⟨hinv, hfiles, hinode, hframe⟩, hlh', hd'⟩
  rw [hinum2] at hlh' hd'
  rw [hlh2] at hlh'
  rw [hd2] at hd'
  exact .inr ⟨hgo, tot, s1, ip1, data, got, rfl, hp, hinv, hfiles, hinode, hframe, hlh', hd'⟩

def View.contents (v : View) : List UInt8 := (List.range v.size).map v.byte

/-- The contents of the file that entry `e` of the inode table stands for. -/
def State.contents (s : State) (e : Fin NINODE) : List UInt8 :=
  (view s.disk (s.inode e).din).contents

/-- `l` with the bytes from `off` on replaced by `bytes`; it may grow. -/
def splice (l : List UInt8) (off : Nat) (bytes : List UInt8) : List UInt8 :=
  l.take off ++ bytes ++ l.drop (off + bytes.length)

theorem View.length_contents (v : View) : v.contents.length = v.size := by
  rw [contents, length_map, length_range]

theorem View.getElem_contents (v : View) (h : k < v.contents.length) :
    v.contents[k] = v.byte k := by
  simp only [contents, getElem_map, getElem_range]

theorem contents_splice {v w : View} (hoff : off ≤ v.size)
    (hsize : w.size = max v.size (off + m)) (hbytes : flat w.data = patch (flat v.data) off m g) :
    w.contents = splice v.contents off ((range m).map g) := by
  have hbyte : ∀ k, w.byte k = patch v.byte off m g k := fun k => congrFun hbytes k
  have hv := v.length_contents
  apply ext_getElem
  · simp only [splice, View.length_contents, length_append, length_take,
      length_drop, length_map, length_range]
    omega
  intro k h1 h2
  rw [View.getElem_contents, hbyte]
  rw [View.length_contents] at h1
  simp only [splice, getElem_append, length_append, length_take, length_map,
    length_range, getElem_take, getElem_drop, getElem_map,
    getElem_range, View.getElem_contents]
  by_cases hlow : k < off
  · rw [patch_out (.inl hlow), dif_pos (by omega), dif_pos (by omega)]
  by_cases hin : k < off + m
  · rw [patch_in (by omega) hin, dif_pos (by omega), dif_neg (by omega)]
    congr 1
    omega
  · rw [patch_out (by omega), dif_neg (by omega)]
    congr 1
    omega

theorem contents_part (v : View) (off n : Nat) :
    ((range (min n (v.size - off))).map fun j => v.byte (off + j)) =
      (v.contents.drop off).take n := by
  apply ext_getElem
  · simp only [length_map, length_range, length_take, length_drop, View.length_contents]
  · intro k h1 h2
    simp only [getElem_map, getElem_range, getElem_take, getElem_drop, View.getElem_contents]

theorem readi_contents (h : Inv sb s t) (hr : 0 < (s.inode e).ref) (hv : (s.inode e).valid)
    {n : Nat} (hoff : off ≤ (s.inode e).din.size.toNat) (hwrap : off + n < 2 ^ 32) :
    Wp (fun _ => False) (readi sb e (fun _ _ => true) off n) s fun r s' => s' = s ∧
      r.2 = ((s.contents e).drop off).take n ∧ r.1 = (r.2.length : Int) := by
  refine (readi_bytes hoff hwrap ?_).mono ?_
  · intro bn _ hbn
    exact noHole_of_inv h hr hv bn (by omega)
  · rintro r s' ⟨hs, hr'⟩
    rw [hr']
    refine ⟨hs, contents_part (view s.disk (s.inode e).din) off n, ?_⟩
    rw [length_map, length_range]

section Done

variable {src : Source} {n off tot : Nat} {s1 : State} {ip1 : Dinode} {data : Nat → Block}
  {got : Nat}

section

variable (hw : WriteDone sb t s s' e src n off tot s1 ip1 data got)
include hw

theorem WriteDone.entry : ∃ din, s'.inode e = { s.inode e with din := din } := by
  obtain ⟨din, hinode⟩ := hw.inode
  exact ⟨din, by rw [hinode, update_self]⟩

variable (hr : 0 < (s.inode e).ref) (hv : (s.inode e).valid)
include hr hv

theorem WriteDone.ref : 0 < (s'.inode e).ref ∧ (s'.inode e).valid = true := by
  obtain ⟨din, hent⟩ := hw.entry
  rw [hent]
  exact ⟨hr, hv⟩

theorem WriteDone.view_eq :
    view s'.disk (s'.inode e).din = { view s.disk (s.inode e).din with
      size := max (s.inode e).din.size.toNat (off + tot), data := data } := by
  obtain ⟨din, hent⟩ := hw.entry
  obtain ⟨hr', hv'⟩ := hw.ref hr hv
  have hinum : (s'.inode e).inum = (s.inode e).inum := by rw [hent]
  have hfile := hw.inv.files_eq hr' hv'
  rw [hinum, hw.files, update_self] at hfile
  exact (Option.some.inj hfile).symm

end

variable (h : Inv sb s t) (hr : 0 < (s.inode e).ref)
include h hr

theorem WriteDone.bytes_eq (hv : (s.inode e).valid)
    (hw : WriteDone sb t s s' e src n off tot s1 ip1 data got) :
    flat data = patch (flat (view s.disk (s.inode e).din).data) off (tot + got) src.byte := by
  have hbytes := hw.poured.bytes
  rw [← (h.cached e hr hv).1] at hbytes
  rw [hbytes]
  simp only [Nat.sub_zero, Nat.zero_add]

variable (hw : WriteDone sb t s s' e src n off tot s1 ip1 data got)
include hw

omit h hr in
theorem WriteDone.size_eq (hr : 0 < (s.inode e).ref) (hv : (s.inode e).valid) :
    (s'.inode e).din.size.toNat = max (s.inode e).din.size.toNat (off + tot) :=
  congrArg View.size (hw.view_eq hr hv)

omit hw in
theorem WriteDone.contents_eq (hv : (s.inode e).valid)
    (hoff : off ≤ (s.inode e).din.size.toNat)
    (hw : WriteDone sb t s s' e src n off tot s1 ip1 data 0) :
    s'.contents e = splice (s.contents e) off ((range tot).map src.byte) := by
  apply contents_splice hoff (hw.size_eq hr hv)
  rw [congrArg View.data (hw.view_eq hr hv)]
  exact hw.bytes_eq h hr hv

/-- When every byte can be copied, only a lack of blocks ends a write early. -/
theorem WriteDone.whole (hsrc : ∀ i m, m ≤ src.good i m) :
    got = 0 ∧ (tot < n → Full sb s'.disk) := by
  rcases hw.poured.ending with ⟨hgot, hend⟩ | ⟨-, hgot, hlt⟩
  · refine ⟨hgot, fun hlt b hb => ?_⟩
    have hge := sb.bblock_ge b
    have hlt' := sb.iblock_lt (h.named e hr).2
    rw [used_congr sb s1.disk (hw.disk _ (by omega))]
    exact (hend.resolve_left hlt.ne).1 b hb
  · have := hsrc tot (piece n (off + tot) tot)
    simp only at hgot hlt
    omega

end Done

variable (h : Inv sb s t) (hr : 0 < (s.inode e).ref) (hv : (s.inode e).valid)
  (ho : 0 < s.outstanding)
include h hr hv ho

/-- Writing to a file changes its contents and its size only. -/
theorem writei_spec (src : Source) (off n : Nat) :
    Wp (Allowed al) (writei sb e src off n) s fun _ s' =>
      Inv sb s' t ∧
      (∃ size data, s'.files sb = update (s.files sb) (s.inode e).inum
        (some { view s.disk (s.inode e).din with size := size, data := data })) ∧
      (∃ din, s'.inode = update s.inode e { s.inode e with din := din }) ∧ Frame s s' := by
  refine (writei_done h hr hv ho src off n).mono ?_
  rintro r s' (⟨-, -, rfl⟩ | ⟨-, tot, s1, ip1, data, got, -, hw⟩)
  · refine ⟨h, ⟨(s'.inode e).din.size.toNat, (view s'.disk (s'.inode e).din).data, ?_⟩,
      ⟨(s'.inode e).din, ?_⟩, .refl s'⟩
    · rw [eq_comm, update_eq_self_iff]
      exact (h.files_eq hr hv).symm
    · rw [update_eq_self]
  · exact ⟨hw.inv, ⟨_, _, hw.files⟩, hw.inode, hw.frame⟩

/-- Writing entry `k` of a directory: done as a whole, or nothing visible. -/
theorem writeEntry_spec (de : Dirent) (k : Nat) :
    Wp (Allowed al) (writei sb e (direntSource de) (16 * k) 16) s fun r s' =>
      Inv sb s' t ∧
      (r = 16 ∧ s'.files sb = update (s.files sb) (s.inode e).inum
          (some ((view s.disk (s.inode e).din).setEntry k de)) ∨
        r ≠ 16 ∧ s'.files sb = s.files sb) ∧
      (∃ din, s'.inode = update s.inode e { s.inode e with din := din }) ∧ Frame s s' := by
  refine (writei_done h hr hv ho (direntSource de) (16 * k) 16).mono ?_
  rintro r s' (⟨-, rfl, rfl⟩ | ⟨hgo, tot, s1, ip1, data, got, rfl, hw⟩)
  · exact ⟨h, .inr ⟨by decide, rfl⟩, ⟨_, by rw [update_eq_self]⟩, .refl s'⟩
  refine ⟨hw.inv, ?_, hw.inode, hw.frame⟩
  have hbytes := hw.bytes_eq h hr hv
  have hgot : got = 0 := by
    rcases hw.poured.ending with ⟨h0, -⟩ | ⟨-, hgood, hlt⟩
    · exact h0
    · exact absurd (hgood ▸ hlt) (Nat.lt_irrefl _)
  have hle : 16 * k ≤ (s.inode e).din.size.toNat := by
    by_contra hlt
    exact hgo (.inl (by omega))
  rw [hgot, Nat.add_zero] at hbytes
  by_cases htot : tot = 16
  · subst htot
    refine .inl ⟨rfl, ?_⟩
    have hmod : 16 ≤ BSIZE - 16 * k % BSIZE := by
      unfold BSIZE
      omega
    have hblock : 16 * k / BSIZE = k / 64 := by
      unfold BSIZE
      omega
    have hstore := flat_store (view s.disk (s.inode e).din).data hmod (direntSource de).byte
    have hput := storeBytes_dirent ((view s.disk (s.inode e).din).data (k / 64)) k de
    simp only [Nat.zero_add] at hput
    rw [← hbytes, hblock, hput] at hstore
    rw [hw.files, ← flat_inj hstore]
    rfl
  · have hzero : tot = 0 := by
      have hn := hw.poured.le
      have hal := hw.poured.aligned (by simp only at hn ⊢; omega)
      unfold BSIZE at hal
      simp only at hal hn
      omega
    subst hzero
    rw [patch_zero] at hbytes
    refine .inr ⟨by decide, ?_⟩
    rw [hw.files, flat_inj hbytes, Nat.add_zero, max_eq_left hle, update_eq_self_iff]
    exact (h.files_eq hr hv).symm

end Xv6.Fs
