import Xv6.Kernel.Fs.IoSpec
import Xv6.Kernel.Log.Invariant

namespace Xv6.Fs

open ByteCodec Hoare Nat

def Superblock.logCapacity (sb : Superblock) : Nat := min LOGSIZE (sb.nlog - 1)

/-- A stop because the log is full, after `k` blocks at most. -/
def Overfull (sb : Superblock) (k : Nat) (x : Stop) : Prop :=
  x = .panic .tooBig ∧ sb.logCapacity ≤ k

variable {sb : Superblock} {s s' : State} {e : Fin NINODE} {k : Nat}

/-- What log accounting has to know of the state besides the log. -/
structure LogFrame (s s' : State) : Prop where
  logged : ∀ b, b ∈ s.lh → b ∈ s'.lh
  inode : s'.inode = s.inode
  outstanding : s'.outstanding = s.outstanding

theorem LogFrame.refl (s : State) : LogFrame s s := ⟨fun _ hb => hb, rfl, rfl⟩

theorem LogFrame.trans {s'' : State} (h : LogFrame s s') (h' : LogFrame s' s'') : LogFrame s s'' :=
  ⟨fun b hb => h'.logged b (h.logged b hb), h'.inode.trans h.inode,
    h'.outstanding.trans h.outstanding⟩

theorem logWrite_budget (b : Nat) (data : Block) (ho : 0 < s.outstanding) (hk : s.lh.length ≤ k) :
    Wp (Overfull sb k) (logWrite sb b data) s fun _ s' =>
      s'.lh = Log.absorb s.lh b ∧ LogFrame s s' := by
  simp only [logWrite, wp_bind, wp_get, wp_ite, wp_panic, wp_set]
  split_ifs with hfull hout
  · refine ⟨rfl, ?_⟩
    unfold Superblock.logCapacity
    omega
  · omega
  · refine ⟨trivial, ?_, rfl, rfl⟩
    intro c hc
    exact (Log.mem_absorb _ _ _).mpr (.inl hc)

theorem ballocFrom_budget (ho : 0 < s.outstanding) (hk : s.lh.length + 2 ≤ k) (n b : Nat) :
    Wp (Overfull sb k) (ballocFrom sb n b) s fun r s' => LogFrame s s' ∧
      s'.lh.length ≤ s.lh.length + 2 ∧ (s'.lh = s.lh ∨ r.toNat ∈ s'.lh) := by
  have hstay : ∀ r : UInt32, LogFrame s s ∧ s.lh.length ≤ s.lh.length + 2 ∧
      (s.lh = s.lh ∨ r.toNat ∈ s.lh) := fun _ => ⟨.refl s, by omega, .inl rfl⟩
  induction n generalizing b with
  | zero => exact hstay 0
  | succ n ih =>
    simp only [ballocFrom, wp_ite]
    split_ifs with hlt
    · rw [wp_bind, wp_bread]
      cases hscan : scanBits (s.disk (sb.bblock b)) (min BPB (sb.size - b)) 0 with
      | none => exact ih (b + BPB)
      | some bi =>
        obtain ⟨-, hbi, -⟩ := scanBits_some hscan
        have hsize := sb.size_lt
        refine (logWrite_budget _ _ ho (by omega)).bind ?_
        rintro _ s1 ⟨hlh1, hf1⟩
        have hlen1 := (Log.absorb_length s.lh (sb.bblock b)).2
        rw [← hlh1] at hlen1
        simp only [bzero, wp_bind]
        refine (logWrite_budget _ _ (hf1.outstanding ▸ ho) (by omega)).mono ?_
        rintro _ s2 ⟨hlh2, hf2⟩
        have hlen2 := (Log.absorb_length s1.lh (b + bi)).2
        rw [← hlh2] at hlen2
        simp only [wp_note, wp_pure]
        have hlt : b + bi < 2 ^ 32 := by omega
        obtain ⟨hlogged, hinode, hout⟩ := hf1.trans hf2
        refine ⟨⟨hlogged, hinode, hout⟩, by omega, .inr ?_⟩
        rw [UInt32.toNat_ofNat_of_lt' hlt, hlh2, Log.mem_absorb]
        exact .inr rfl
    · exact hstay 0

/-- What the indirect block can still cost: it may have to be allocated, or only logged. -/
def indirectCost (s : State) (e : Fin NINODE) : Nat :=
  if (s.inode e).din.ind = 0 then 2 else if (s.inode e).din.ind.toNat ∈ s.lh then 0 else 1

theorem indirectCost_le (s : State) (e : Fin NINODE) : indirectCost s e ≤ 2 := by
  unfold indirectCost
  split_ifs <;> omega

theorem indirectCost_eq_zero (h0 : (s.inode e).din.ind ≠ 0)
    (hmem : (s.inode e).din.ind.toNat ∈ s.lh) : indirectCost s e = 0 := by
  rw [indirectCost, if_neg h0, if_pos hmem]

theorem LogFrame.indirectCost_le (h : LogFrame s s') (e : Fin NINODE) :
    indirectCost s' e ≤ indirectCost s e := by
  unfold indirectCost
  rw [h.inode]
  split_ifs with h0 h1 h2 h3
  · omega
  · omega
  · omega
  · exact absurd (h.logged _ h3) h1
  · omega

/-- What logging block `b` costs. -/
def logCost (s : State) (b : Nat) : Nat := if b ∈ s.lh then 0 else 1

theorem logCost_le (s : State) (b : Nat) : logCost s b ≤ 1 := by
  unfold logCost
  split_ifs <;> omega

theorem logCost_of_mem {b : Nat} (h : b ∈ s.lh) : logCost s b = 0 := if_pos h

theorem absorb_length_eq (s : State) (b : Nat) :
    (Log.absorb s.lh b).length = s.lh.length + logCost s b := by
  unfold Log.absorb logCost
  split_ifs <;> simp

theorem bmapSlot_budget (ho : 0 < s.outstanding) (hk : s.lh.length + 2 ≤ k)
    (j : Fin (NDIRECT + 1)) :
    Wp (Overfull sb k) (bmapSlot sb e j) s fun r s' => s'.outstanding = s.outstanding ∧
      (s' = s ∧ r = (s.inode e).din.addrs j ∨
        (s.inode e).din.addrs j = 0 ∧ (∀ b, b ∈ s.lh → b ∈ s'.lh) ∧
          s'.lh.length ≤ s.lh.length + 2 ∧ (s'.lh = s.lh ∨ r.toNat ∈ s'.lh) ∧
          (r = 0 ∧ s'.inode = s.inode ∨
            r ≠ 0 ∧ (s'.inode e).din = (s.inode e).din.withAddr j r)) := by
  simp only [bmapSlot, wp_bind, wp_getInode, wp_ite, wp_pure, wp_setAddr]
  split_ifs with h0
  · refine (ballocFrom_budget ho hk _ _).mono ?_
    rintro r s1 ⟨hf, hlen, hmem⟩
    split_ifs with hr0
    · rw [hr0] at hmem
      exact ⟨hf.outstanding, .inr ⟨h0, hf.logged, hlen, hmem, .inl ⟨trivial, hf.inode⟩⟩⟩
    · refine ⟨hf.outstanding, .inr ⟨h0, hf.logged, hlen, hmem, .inr ⟨hr0, ?_⟩⟩⟩
      rw [setIp_inode_self, hf.inode]
  · exact ⟨trivial, .inl ⟨trivial, trivial⟩⟩

variable {bn : Nat}

/-- A direct block: the block itself, and two if it has to be allocated. -/
theorem bmapDirect_budget (ho : 0 < s.outstanding) (hbn : bn < NDIRECT) (hk : s.lh.length + 2 ≤ k) :
    Wp (Overfull sb k) (bmapSlot sb e ⟨bn, lt_succ_of_lt hbn⟩) s fun r s' =>
      s'.outstanding = s.outstanding ∧ s'.lh.length + indirectCost s' e + logCost s' r.toNat ≤
        s.lh.length + indirectCost s e + 2 := by
  refine (bmapSlot_budget ho hk _).mono ?_
  rintro r s' ⟨hout, hres⟩
  refine ⟨hout, ?_⟩
  have hcost := logCost_le s' r.toNat
  cases hres with
  | inl hsame =>
    rw [hsame.1] at hcost ⊢
    omega
  | inr halloc =>
    obtain ⟨-, hlogged, hlen, hmem, hinode⟩ := halloc
    have hind : (s'.inode e).din.ind = (s.inode e).din.ind := by
      cases hinode with
      | inl hz => rw [hz.2]
      | inr hset =>
        rw [hset.2, Dinode.ind, withAddr_addrs, if_neg (Fin.ne_of_gt hbn)]
        rfl
    have hle : indirectCost s' e ≤ indirectCost s e := by
      unfold indirectCost
      rw [hind]
      split_ifs with h0 h1 h2 h3
      · omega
      · omega
      · omega
      · exact absurd (hlogged _ h3) h1
      · omega
    cases hmem with
    | inl hlh =>
      rw [hlh]
      omega
    | inr hmem =>
      rw [logCost_of_mem hmem]
      omega

/-- The indirect block is paid for in full when it is allocated. -/
theorem bmapIndirect_budget (ho : 0 < s.outstanding) (hk : s.lh.length + 2 ≤ k) :
    Wp (Overfull sb k) (bmapSlot sb e (Fin.last NDIRECT)) s fun r s' =>
      s'.outstanding = s.outstanding ∧
      (r = 0 → s'.lh.length + indirectCost s' e + logCost s' r.toNat ≤
        s.lh.length + indirectCost s e + 2) ∧
      (r ≠ 0 → (s'.inode e).din.ind = r ∧
        s'.lh.length + indirectCost s' e ≤ s.lh.length + indirectCost s e) := by
  refine (bmapSlot_budget ho hk _).mono ?_
  rintro r s' ⟨hout, hres⟩
  have hcost := logCost_le s' r.toNat
  refine ⟨hout, ?_⟩
  cases hres with
  | inl hsame =>
    obtain ⟨rfl, rfl⟩ := hsame
    exact ⟨fun _ => by omega, fun _ => ⟨rfl, le_rfl⟩⟩
  | inr halloc =>
    obtain ⟨h0, hlogged, hlen, hmem, hinode⟩ := halloc
    have hbefore : indirectCost s e = 2 := if_pos h0
    constructor
    · intro _
      have hle := indirectCost_le s' e
      cases hmem with
      | inl hlh =>
        rw [hlh]
        omega
      | inr hmem =>
        rw [logCost_of_mem hmem]
        omega
    intro hr0
    have hind : (s'.inode e).din.ind = r := by
      rw [(hinode.resolve_left fun hz => hr0 hz.1).2, Dinode.ind, withAddr_addrs, if_pos rfl]
    refine ⟨hind, ?_⟩
    cases hmem with
    | inl hlh =>
      have hle := indirectCost_le s' e
      rw [hlh]
      omega
    | inr hmem =>
      rw [indirectCost_eq_zero (by rw [hind]; exact hr0) (by rw [hind]; exact hmem)]
      omega

/-- `bmap` and the write that follows it cost two blocks besides the indirect block: a block of the
free map and the block itself. -/
theorem bmap_budget (ho : 0 < s.outstanding) (hbn : bn < MAXFILE)
    (hk : s.lh.length + indirectCost s e + 2 ≤ k) :
    Wp (Overfull sb k) (bmap sb e bn) s fun r s' => s'.outstanding = s.outstanding ∧
      s'.lh.length + indirectCost s' e + logCost s' r.toNat ≤
        s.lh.length + indirectCost s e + 2 := by
  unfold bmap
  split_ifs with hdir hind
  · exact bmapDirect_budget ho hdir (by omega)
  · refine (bmapIndirect_budget ho (by omega)).bind ?_
    rintro ind s1 ⟨ho1, hz1, hne1⟩
    rw [wp_ite]
    split_ifs with h0
    · rw [h0] at hz1
      exact ⟨ho1, hz1 rfl⟩
    obtain ⟨hind1, hlen1⟩ := hne1 h0
    have hcost1 : indirectCost s1 e = logCost s1 ind.toNat := by
      rw [indirectCost, hind1, if_neg h0]
      rfl
    simp only [wp_bind, wp_bread, wp_ite, wp_pure]
    split_ifs with hentry
    · refine (ballocFrom_budget (ho1 ▸ ho) (by omega) _ _).mono ?_
      rintro r s2 ⟨hf2, hlen2, hmem2⟩
      have hle2 := hf2.indirectCost_le e
      have hcost := logCost_le s2 (0 : UInt32).toNat
      split_ifs with hr0
      · refine ⟨hf2.outstanding.trans ho1, ?_⟩
        rw [hr0] at hmem2
        cases hmem2 with
        | inl hlh =>
          rw [hlh]
          omega
        | inr hmem =>
          rw [logCost_of_mem hmem]
          omega
      have hout2 : 0 < s2.outstanding := by
        rw [hf2.outstanding, ho1]
        exact ho
      refine (logWrite_budget _ _ hout2 (by omega)).mono ?_
      rintro _ s3 ⟨hlh3, hf3⟩
      refine ⟨(hf3.outstanding.trans hf2.outstanding).trans ho1, ?_⟩
      have hind3 : (s3.inode e).din.ind = ind := by rw [hf3.inode, hf2.inode, hind1]
      have hmem3 : ind.toNat ∈ s3.lh := by
        rw [hlh3, Log.mem_absorb]
        exact .inr rfl
      have hcost2 : indirectCost s2 e = logCost s2 ind.toNat := by
        rw [indirectCost, hf2.inode, hind1, if_neg h0]
        rfl
      have hlen3 : s3.lh.length = s2.lh.length + logCost s2 ind.toNat := by
        rw [hlh3, absorb_length_eq]
      rw [indirectCost_eq_zero (by rw [hind3]; exact h0) (by rw [hind3]; exact hmem3), hlen3]
      cases hmem2 with
      | inl hlh =>
        have := logCost_le s3 r.toNat
        rw [hlh]
        omega
      | inr hmem =>
        rw [logCost_of_mem (hf3.logged _ hmem)]
        omega
    · have := logCost_le s1 (u32.get (s1.disk ind.toNat) (bn - NDIRECT)).toNat
      exact ⟨ho1, by omega⟩
  · unfold MAXFILE at hbn
    omega

theorem bmap_budget_read (hne : blockAt s.disk (s.inode e).din bn ≠ 0) :
    Wp (Overfull sb k) (bmap sb e bn) s fun r s' => s'.outstanding = s.outstanding ∧
      s'.lh.length + indirectCost s' e + logCost s' r.toNat ≤
        s.lh.length + indirectCost s e + 1 := by
  refine (bmap_read hne).mono ?_
  rintro r s' ⟨-, rfl⟩
  have := logCost_le s' r.toNat
  exact ⟨rfl, by omega⟩

variable {n off : Nat}

variable (ho : 0 < s.outstanding)
include ho

/-- One round of `writei` with `c` blocks in the log after it at most. -/
theorem writeiLoop_budget_round {src : Source} {fuel tot c : Nat} {Q : Nat × Nat → State → Prop}
    (htot : tot < n) (hc : c ≤ k)
    (hbmap : Wp (Overfull sb k) (bmap sb e (off / BSIZE)) s fun r s' =>
      s'.outstanding = s.outstanding ∧ s'.lh.length + indirectCost s' e + logCost s' r.toNat ≤ c)
    (hstop : ∀ s', s'.outstanding = s.outstanding → s'.lh.length + indirectCost s' e ≤ c →
      Q (tot, off) s')
    (hgo : ∀ s', s'.outstanding = s.outstanding → s'.lh.length + indirectCost s' e ≤ c →
      Wp (Overfull sb k) (writeiLoop sb e src n fuel (off + min (n - tot) (BSIZE - off % BSIZE))
        (tot + min (n - tot) (BSIZE - off % BSIZE))) s' Q) :
    Wp (Overfull sb k) (writeiLoop sb e src n (fuel + 1) off tot) s Q := by
  simp only [writeiLoop, if_pos htot, wp_bind, wp_ite, wp_bread, wp_pure, wp_modify]
  refine hbmap.mono ?_
  rintro addr s1 ⟨ho1, hlen1⟩
  split_ifs with h0 hgot
  · exact hstop s1 ho1 (by omega)
  · exact hstop _ ho1 (by change s1.lh.length + indirectCost s1 e ≤ c; omega)
  refine (logWrite_budget _ _ (ho1 ▸ ho) (by omega)).mono ?_
  rintro _ s2 ⟨hlh2, hf2⟩
  have hle := hf2.indirectCost_le e
  have hlen2 : s2.lh.length = s1.lh.length + logCost s1 addr.toNat := by
    rw [hlh2, absorb_length_eq]
  exact hgo s2 (hf2.outstanding.trans ho1) (by omega)

/-- Blocks of a file that hold bytes of the range of `n` bytes from `off` on. -/
def spanned (off n : Nat) : Nat :=
  if n = 0 then 0 else (off % BSIZE + n + (BSIZE - 1)) / BSIZE

omit ho in
theorem spanned_round (off : Nat) (hn : 0 < n) :
    spanned off n = spanned (off + min n (BSIZE - off % BSIZE)) (n - min n (BSIZE - off % BSIZE))
      + 1 := by
  unfold spanned BSIZE
  split_ifs <;> omega

theorem writeiLoop_budget (src : Source) (n fuel off tot : Nat)
    (hoff : off + (n - tot) ≤ MAXFILE * BSIZE) (hfuel : n - tot ≤ fuel)
    (hk : s.lh.length + indirectCost s e + 2 * spanned off (n - tot) ≤ k) :
    Wp (Overfull sb k) (writeiLoop sb e src n fuel off tot) s fun _ s' =>
      s'.outstanding = s.outstanding ∧
      s'.lh.length ≤ s.lh.length + indirectCost s e + 2 * spanned off (n - tot) := by
  induction fuel generalizing s off tot with
  | zero =>
    rw [writeiLoop_done (by omega)]
    exact ⟨rfl, by omega⟩
  | succ fuel ih =>
    by_cases htot : tot < n
    · have hlt : off / BSIZE < MAXFILE := Nat.div_lt_of_lt_mul (by rw [Nat.mul_comm]; omega)
      have hround := spanned_round off (by omega : 0 < n - tot)
      have hmod : off % BSIZE < BSIZE := mod_lt _ (by decide)
      generalize hm : min (n - tot) (BSIZE - off % BSIZE) = m at hround
      have hrest : n - tot - m = n - (tot + m) := by omega
      rw [hrest] at hround
      apply writeiLoop_budget_round ho htot _ (bmap_budget ho hlt (by omega))
      · intro s1 ho1 hlen1
        exact ⟨ho1, by omega⟩
      · intro s1 ho1 hlen1
        rw [hm]
        refine (ih (ho1 ▸ ho) (off + m) (tot + m) (by omega) (by omega) (by omega)).mono ?_
        rintro _ s' ⟨ho', hlen'⟩
        exact ⟨ho'.trans ho1, by omega⟩
      · omega
    · rw [writeiLoop_done (by omega)]
      exact ⟨rfl, by omega⟩

/-- `writei` logs what its loop logs and the block of the inode. -/
theorem writei_budget_loop {src : Source} {c : Nat} (hc : c ≤ k) (hlen : s.lh.length ≤ c)
    (hloop : off ≤ (s.inode e).din.size.toNat → off + n ≤ MAXFILE * BSIZE →
      Wp (Overfull sb k) (writeiLoop sb e src n n off 0) s fun _ s' =>
        s'.outstanding = s.outstanding ∧ s'.lh.length ≤ c) :
    Wp (Overfull sb k) (writei sb e src off n) s fun _ s' => s'.lh.length ≤ c + 1 := by
  simp only [writei, wp_bind, wp_getInode, wp_ite, wp_pure]
  split_ifs with h1 h2
  · omega
  · omega
  refine (hloop (by omega) (by omega)).mono ?_
  rintro r s1 ⟨ho1, hlen1⟩
  rw [wp_setInode]
  generalize (if (s1.inode e).din.size.toNat < r.2 then _ else _) = ip
  simp only [iupdate, wp_bind, wp_getInode, wp_bread]
  have hout : 0 < (s1.setIp e ip).outstanding := ho1 ▸ ho
  refine (logWrite_budget _ _ hout (hlen1.trans hc)).mono ?_
  rintro _ s2 ⟨hlh2, -⟩
  rw [hlh2]
  exact (Log.absorb_length _ _).2.trans (succ_le_succ hlen1)

/-- Blocks that `writei` can log: each block of the range with a block of the free map, the indirect
block with another one, and the block of the inode. -/
def writeCost (off n : Nat) : Nat := 2 * spanned off n + 3

theorem writei_budget (src : Source) (off n : Nat) (hk : s.lh.length + writeCost off n ≤ k + 1) :
    Wp (Overfull sb k) (writei sb e src off n) s fun _ s' =>
      s'.lh.length ≤ s.lh.length + writeCost off n := by
  have hind := indirectCost_le s e
  unfold writeCost at *
  refine (writei_budget_loop (c := s.lh.length + 2 * spanned off n + 2) ho (by omega) (by omega)
    ?_).mono ?_
  · intro _ hoff
    refine (writeiLoop_budget ho src n n off 0 hoff (sub_le _ _) (by
      rw [Nat.sub_zero]
      omega)).mono ?_
    rintro _ s' ⟨ho', hlen'⟩
    rw [Nat.sub_zero] at hlen'
    exact ⟨ho', by omega⟩
  · intro _ s' hlen'
    omega

/-- At most `maxWrite` bytes: the first block of an unaligned range is in place, for a file has no
hole, which leaves three blocks to allocate. -/
theorem writei_budget_chunk (src : Source) (hn : n ≤ maxWrite)
    (hhole : ∀ bn, bn * BSIZE < (s.inode e).din.size.toNat → blockAt s.disk (s.inode e).din bn ≠ 0)
    (hk : s.lh.length + MAXOPBLOCKS ≤ k + 1) :
    Wp (Overfull sb k) (writei sb e src off n) s fun _ s' =>
      s'.lh.length ≤ s.lh.length + MAXOPBLOCKS := by
  have hind := indirectCost_le s e
  have hmax : maxWrite = 3 * BSIZE := by decide
  have hops : MAXOPBLOCKS = 10 := rfl
  rw [hops] at hk ⊢
  refine (writei_budget_loop (c := s.lh.length + 9) ho (by omega) (by omega) ?_).mono
    fun _ _ hlen => hlen
  intro hsize hoff
  by_cases hal : off % BSIZE = 0
  · have hspan : spanned off n ≤ 3 := by
      unfold spanned BSIZE at *
      split_ifs <;> omega
    refine (writeiLoop_budget ho src n n off 0 hoff (sub_le _ _) (by
      rw [Nat.sub_zero]
      omega)).mono ?_
    rintro _ s' ⟨ho', hlen'⟩
    rw [Nat.sub_zero] at hlen'
    exact ⟨ho', by omega⟩
  cases n with
  | zero =>
    rw [writeiLoop_done le_rfl]
    exact ⟨rfl, by omega⟩
  | succ n =>
    have hfirst : blockAt s.disk (s.inode e).din (off / BSIZE) ≠ 0 := by
      apply hhole
      have := div_add_mod' off BSIZE
      omega
    have hround := spanned_round off (by omega : 0 < n + 1)
    have hspan : spanned off (n + 1) ≤ 4 := by
      unfold spanned BSIZE at *
      split_ifs <;> omega
    apply writeiLoop_budget_round ho (by omega : 0 < n + 1) _ (bmap_budget_read hfirst)
    · intro s1 ho1 hlen1
      exact ⟨ho1, by omega⟩
    · intro s1 ho1 hlen1
      have hmod : off % BSIZE < BSIZE := mod_lt _ (by decide)
      simp only [Nat.sub_zero, Nat.zero_add]
      generalize hm : min (n + 1) (BSIZE - off % BSIZE) = m at *
      refine (writeiLoop_budget (ho1 ▸ ho) src _ _ _ _ (by omega) (by omega) (by omega)).mono ?_
      rintro _ s' ⟨ho', hlen'⟩
      exact ⟨ho'.trans ho1, by omega⟩
    · omega

end Xv6.Fs
