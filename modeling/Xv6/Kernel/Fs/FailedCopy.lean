import Xv6.Kernel.Fs.FileData

namespace Xv6.Fs

open ByteCodec Hoare Nat
open Vm (PGSIZE)

/-- The memory of a user program: its bytes, and the pages that it can read. -/
structure UserMem where
  byte : Nat → UInt8
  mapped : Nat → Bool

/-- The loop of `copyin`: how many of the `len` bytes at `srcva` it copies before it comes to a page
that is not mapped. -/
def UserMem.copyin (u : UserMem) : Nat → Nat → Nat → Nat
  | 0, _, _ => 0
  | fuel + 1, srcva, len =>
      if len = 0 ∨ u.mapped (srcva / PGSIZE) = false then 0
      else
        let n := min len (PGSIZE - srcva % PGSIZE)
        n + u.copyin fuel ((srcva / PGSIZE + 1) * PGSIZE) (len - n)

theorem UserMem.copyin_spec (u : UserMem) (fuel srcva len : Nat) (hfuel : len ≤ fuel) :
    u.copyin fuel srcva len ≤ len ∧
    (∀ j, j < u.copyin fuel srcva len → u.mapped ((srcva + j) / PGSIZE) = true) ∧
    (u.copyin fuel srcva len < len →
      u.mapped ((srcva + u.copyin fuel srcva len) / PGSIZE) = false) := by
  induction fuel generalizing srcva len with
  | zero =>
    have hlen : len = 0 := by omega
    subst hlen
    exact ⟨le_rfl, fun j hj => absurd hj (Nat.not_lt_zero j), fun h => absurd h (Nat.lt_irrefl 0)⟩
  | succ fuel ih =>
    rw [UserMem.copyin]
    split_ifs with hstop
    · refine ⟨Nat.zero_le _, fun j hj => absurd hj (Nat.not_lt_zero j), fun hlt => ?_⟩
      exact hstop.resolve_left (by omega)
    rw [not_or, Bool.not_eq_false] at hstop
    have hmod : srcva % PGSIZE < PGSIZE := mod_lt _ (by decide)
    have hdiv := div_add_mod' srcva PGSIZE
    simp only
    generalize hn : min len (PGSIZE - srcva % PGSIZE) = n
    have hpos : 0 < n := by omega
    obtain ⟨hle, hmapped, hbad⟩ := ih ((srcva / PGSIZE + 1) * PGSIZE) (len - n) (by omega)
    generalize u.copyin fuel ((srcva / PGSIZE + 1) * PGSIZE) (len - n) = c at *
    have hpage : ∀ j, j < n → (srcva + j) / PGSIZE = srcva / PGSIZE := by
      intro j hj
      unfold PGSIZE at *
      omega
    have hnext : ∀ j, 0 < len - n → srcva + (n + j) = (srcva / PGSIZE + 1) * PGSIZE + j := by
      intro j hj
      rw [succ_mul]
      omega
    refine ⟨by omega, fun j hj => ?_, fun hlt => ?_⟩
    · by_cases hjn : j < n
      · rw [hpage j hjn]
        exact hstop.2
      · have hj' : srcva + j = (srcva / PGSIZE + 1) * PGSIZE + (j - n) := by
          rw [← hnext (j - n) (by omega)]
          omega
        rw [hj']
        exact hmapped _ (by omega)
    · rw [hnext c (by omega)]
      exact hbad (by omega)

/-- The bytes of the range of `n` bytes at `addr` before the first page that is not mapped. -/
def UserMem.readable (u : UserMem) (addr n : Nat) : Nat := u.copyin n addr n

/-- User memory at `addr` as the source of a write. -/
def UserMem.source (u : UserMem) (addr : Nat) : Source :=
  ⟨fun j => u.byte (addr + j), fun i m => u.copyin m (addr + i) m⟩

theorem UserMem.readable_le (u : UserMem) (addr n : Nat) : u.readable addr n ≤ n :=
  (u.copyin_spec n addr n le_rfl).1

variable {n : Nat}

/-- A copy from within the range ends where it ends or at the first bad page. -/
theorem UserMem.source_good (u : UserMem) {addr i m : Nat} (hi : i ≤ u.readable addr n)
    (him : i + m ≤ n) : (u.source addr).good i m = min m (u.readable addr n - i) := by
  obtain ⟨hle, hmapped, hbad⟩ := u.copyin_spec m (addr + i) m le_rfl
  obtain ⟨hle', hmapped', hbad'⟩ := u.copyin_spec n addr n le_rfl
  change u.copyin m (addr + i) m = _
  change i ≤ u.copyin n addr n at hi
  change _ = min m (u.copyin n addr n - i)
  generalize u.copyin m (addr + i) m = c at *
  generalize u.copyin n addr n = l at *
  rcases lt_trichotomy c (min m (l - i)) with hlt | heq | hgt
  · have h1 := hbad (by omega)
    rw [Nat.add_assoc, hmapped' (i + c) (by omega)] at h1
    cases h1
  · exact heq
  · have h1 := hmapped (l - i) (by omega)
    have h2 := hbad' (by omega)
    rw [Nat.add_assoc, Nat.add_sub_cancel' hi, h2] at h1
    cases h1

variable {sb : Superblock} {s s' : State} {t : Fin NINODE → Nat} {e : Fin NINODE}

/-- Where the copy of a write fails: the start of the piece with the first bad page. -/
def failedAt (off good : Nat) : Nat := (off + good) / BSIZE * BSIZE - off

section Done

variable {u : UserMem} {addr n off tot : Nat} {s1 : State} {ip1 : Dinode} {data : Nat → Block}
  {got : Nat}

/-- What is written is readable, and where the copy failed the rest of the readable bytes is what it
left in the buffer. -/
theorem WriteDone.readable (hw : WriteDone sb t s s' e (u.source addr) n off tot s1 ip1 data got) :
    tot ≤ u.readable addr n ∧
    (got = 0 ∧ (tot = n ∨ blockAt s.disk (dinodeAt sb s.disk (s.inode e).inum)
        ((off + tot) / BSIZE) = 0) ∨
      tot + got = u.readable addr n ∧ failedAt off (u.readable addr n) = tot ∧
        u.readable addr n < n ∧ got < BSIZE - (off + tot) % BSIZE) := by
  have hle := u.readable_le addr n
  have hread : tot ≤ u.readable addr n := by
    by_contra hlt
    obtain ⟨p, -, hpk, hkp, hgood⟩ := hw.poured.copied (u.readable addr n) (Nat.zero_le _)
      (not_le.mp hlt)
    have htot := hw.poured.le
    rw [Nat.sub_zero] at hkp hgood
    rw [u.source_good hpk (by unfold piece; simp only at htot; omega)] at hgood
    omega
  refine ⟨hread, ?_⟩
  rcases hw.poured.ending with ⟨h0, hend⟩ | ⟨hlt, hgot, hshort⟩
  · exact .inl ⟨h0, hend.imp_right And.right⟩
  have hpiece : piece n (off + tot) tot ≤ n - tot ∧
      piece n (off + tot) tot ≤ BSIZE - (off + tot) % BSIZE := by
    unfold piece
    omega
  have hal := hw.poured.aligned hlt
  simp only at hlt hgot hshort hal
  rw [u.source_good hread (by omega)] at hgot
  refine .inr ⟨by omega, ?_, by omega, by omega⟩
  have hsum : u.readable addr n = tot + got := by omega
  unfold failedAt
  rw [hsum]
  unfold BSIZE at *
  omega

end Done

/-- The byte that `readi` delivers at offset `k`, if there is one. -/
def seen (sb : Superblock) (s : State) (e : Fin NINODE) (k : Nat) : Option (List UInt8) :=
  (readi sb e (fun _ _ => true) k 1 s).toOption.map fun x => x.1.2

theorem seen_eq (h : Inv sb s t) (hr : 0 < (s.inode e).ref) (hv : (s.inode e).valid)
    (k : Nat) : seen sb s e k = some (if k < (s.inode e).din.size.toNat then
      [flat (view s.disk (s.inode e).din).data k] else []) := by
  have hsize := size_le_of_inv h hr hv
  have hmax : MAXFILE * BSIZE + 1 < 2 ^ 32 := by decide
  by_cases hk : k ≤ (s.inode e).din.size.toNat
  · obtain ⟨r, s', hrun, -, hbytes, -⟩ := (readi_contents (n := 1) h hr hv hk (by omega)).total
    rw [seen, hrun]
    change some r.2 = _
    rw [hbytes, State.contents, ← contents_part]
    congr 1
    have hlen : (view s.disk (s.inode e).din).size = (s.inode e).din.size.toNat := rfl
    rw [hlen]
    split_ifs with hlt
    · have hmin : min 1 ((s.inode e).din.size.toNat - k) = 1 := by omega
      rw [hmin]
      rfl
    · have hmin : min 1 ((s.inode e).din.size.toNat - k) = 0 := by omega
      rw [hmin]
      rfl
  · have hrun : readi sb e (fun _ _ => true) k 1 s = .ok ((0, []), s) := by
      have hwp : Wp (fun _ => False) (readi sb e (fun _ _ => true) k 1) s fun r s' =>
          r = (0, []) ∧ s' = s := by
        simp only [readi, wp_bind, wp_getInode, wp_ite, wp_pure]
        rw [if_pos (.inl (not_le.mp hk))]
        exact ⟨trivial, trivial⟩
      obtain ⟨r, s', hrun, rfl, rfl⟩ := hwp.total
      exact hrun
    rw [seen, hrun, if_neg (by omega)]
    rfl

/-- Every buffer that is not in the log is as its block on the disk, `home`. -/
def Clean (home : Disk) (s : State) : Prop := ∀ b, b ∉ s.lh → s.disk b = home b

section Reported

variable {src : Source} {n off tot : Nat} {s1 : State} {ip1 : Dinode} {data : Nat → Block}
  {got : Nat}

section

variable (h : Inv sb s t) (hr : 0 < (s.inode e).ref) (hv : (s.inode e).valid)
include h hr hv

/-- What `readi` sees of a failed copy. -/
theorem WriteDone.seen_iff (hoff : off ≤ (s.inode e).din.size.toNat)
    (hw : WriteDone sb t s s' e src n off tot s1 ip1 data got) :
    (∀ k, ¬ (off ≤ k ∧ k < off + tot) → seen sb s' e k = seen sb s e k) ↔
      ∀ j, tot ≤ j → j < tot + got → off + j < (s.inode e).din.size.toNat →
        src.byte j = flat (view s.disk (s.inode e).din).data (off + j) := by
  obtain ⟨hr', hv'⟩ := hw.ref hr hv
  have hdata : (view s'.disk (s'.inode e).din).data = data := congrArg View.data (hw.view_eq hr hv)
  have hseen : ∀ k, ¬ (off ≤ k ∧ k < off + tot) → (seen sb s' e k = seen sb s e k ↔
      (k < (s.inode e).din.size.toNat →
        flat data k = flat (view s.disk (s.inode e).din).data k)) := by
    intro k hk
    rw [seen_eq h hr hv, seen_eq hw.inv hr' hv', hw.size_eq hr hv, hdata, Option.some_inj]
    by_cases hlt : k < (s.inode e).din.size.toNat
    · rw [if_pos (by omega), if_pos hlt]
      simp [hlt]
    · rw [if_neg (by omega), if_neg hlt]
      simp [hlt]
  have hbytes := hw.bytes_eq h hr hv
  constructor
  · intro hall j hge hlt hsize
    have hk := (hseen (off + j) (by omega)).mp (hall (off + j) (by omega)) hsize
    rw [hbytes, patch_in (by omega) (by omega), Nat.add_sub_cancel_left] at hk
    exact hk
  intro hall k hk
  refine (hseen k hk).mpr fun hsize => ?_
  rw [hbytes]
  by_cases hin : off ≤ k ∧ k < off + (tot + got)
  · have hj := hall (k - off) (by omega) (by omega) (by omega)
    rw [patch_in hin.1 hin.2, hj]
    congr 1
    omega
  · exact patch_out (by omega)

variable (hw : WriteDone sb t s s' e src n off tot s1 ip1 data got)
include hw

theorem WriteDone.data_eq {bn : Nat}
    (hb : blockAt s.disk (dinodeAt sb s.disk (s.inode e).inum) bn ≠ 0) :
    data bn = s1.disk (blockAt s.disk (dinodeAt sb s.disk (s.inode e).inum) bn).toNat ∧
    (view s.disk (s.inode e).din).data bn =
      s.disk (blockAt s.disk (dinodeAt sb s.disk (s.inode e).inum) bn).toNat := by
  constructor
  · have hview := hw.poured.written.view_eq (h.allocated hr hv)
    have hdata : (view s1.disk ip1).data bn = data bn := by rw [hview]
    have hsame := hw.poured.same bn hb
    rw [← hdata, ← hsame]
    exact if_neg (by rw [hsame]; exact hb)
  · rw [(h.cached e hr hv).1]
    exact if_neg hb

/-- Which buffers a failed copy leaves different from the disk. -/
theorem WriteDone.clean_iff (hgot : got < BSIZE - (off + tot) % BSIZE) {home : Disk}
    (hclean : Clean home s) {b0 : UInt32}
    (hb0 : blockAt s.disk (dinodeAt sb s.disk (s.inode e).inum) ((off + tot) / BSIZE) = b0) :
    Clean home s' ↔ got = 0 ∨ b0 = 0 ∨ b0.toNat ∈ s.lh ∨ ∀ j, tot ≤ j → j < tot + got →
        src.byte j = flat (view s.disk (s.inode e).din).data (off + j) := by
  have hal := h.allocated hr hv
  have hbytes := hw.bytes_eq h hr hv
  have hiblock := sb.iblock_lt (h.named e hr).2
  have hmeta := sb.bmapstart_lt
  have hlh : ∀ b, b ∈ s'.lh ↔ b ∈ s1.lh ∨ b = sb.iblock (s.inode e).inum := by
    intro b
    rw [hw.lh, Log.mem_absorb]
  constructor
  · intro hclean'
    by_cases hstop : got = 0 ∨ b0 = 0 ∨ b0.toNat ∈ s.lh
    · exact hstop.elim .inl fun h => .inr (h.imp_right .inl)
    rw [not_or, not_or] at hstop
    obtain ⟨hg0, hz, hmem⟩ := hstop
    rw [← hb0] at hz
    obtain ⟨hnew, hold⟩ := hw.data_eq h hr hv hz
    have hge := (h.img.blockAt_mem hal hz).1
    rw [hb0] at hnew hold hge
    -- the buffer is not logged, so it is as it was
    have hmem1 : b0.toNat ∉ s1.lh := by
      intro hin
      have hspared := hw.poured.spared hg0 hz
      rw [hb0] at hspared
      exact hmem (hspared hin)
    have hne : b0.toNat ≠ sb.iblock (s.inode e).inum := by omega
    have hsame : s1.disk b0.toNat = s.disk b0.toNat := by
      rw [← hw.disk _ hne, hclean' b0.toNat, hclean b0.toNat hmem]
      rw [hlh, not_or]
      exact ⟨hmem1, hne⟩
    refine .inr (.inr (.inr fun j hge' hlt => ?_))
    have hblock : (off + j) / BSIZE = (off + tot) / BSIZE := by
      unfold BSIZE at *
      omega
    have hj := congrFun hbytes (off + j)
    rw [patch_in (by omega) (by omega), Nat.add_sub_cancel_left] at hj
    rw [← hj]
    unfold flat
    rw [hblock, hnew, hold, hsame]
  · intro hcond b hb
    rw [hlh, not_or] at hb
    obtain ⟨hb1, hbi⟩ := hb
    have hbs : b ∉ s.lh := fun hin => hb1 (hw.poured.logged b hin)
    rw [hw.disk b hbi, ← hclean b hbs]
    by_cases hexc : got ≠ 0 → b ≠ (blockAt s1.disk ip1 ((off + tot) / BSIZE)).toNat
    · exact hw.poured.tracked b hb1 hexc
    rw [Classical.not_imp, not_not] at hexc
    obtain ⟨hg0, hbeq⟩ := hexc
    by_cases hz : b0 = 0
    · have hfresh := hw.poured.fresh hg0 (hb0.trans hz)
      rw [hbeq] at hb1
      exact absurd hfresh hb1
    rw [← hb0] at hz
    have hsame := hw.poured.same _ hz
    rw [hsame, hb0] at hbeq
    obtain ⟨hnew, hold⟩ := hw.data_eq h hr hv hz
    rw [hb0, ← hbeq] at hnew hold
    rcases hcond with h0 | h0 | hin | hall
    · exact absurd h0 hg0
    · exact absurd h0 (by rw [← hb0]; exact hz)
    · rw [← hbeq] at hin
      exact absurd hin hbs
    have hstart : tot = 0 ∨ (off + tot) % BSIZE = 0 := by
      rcases hw.poured.ending with ⟨h0, -⟩ | ⟨hlt, -, -⟩
      · exact absurd h0 hg0
      · exact hw.poured.aligned hlt
    rw [← hnew, ← hold]
    funext x
    have hk := congrFun hbytes ((off + tot) / BSIZE * BSIZE + x.val)
    have hx := x.isLt
    rw [flat_block] at hk
    rw [hk, ← flat_block (view s.disk (s.inode e).din).data]
    by_cases hin : off ≤ (off + tot) / BSIZE * BSIZE + x.val ∧
        (off + tot) / BSIZE * BSIZE + x.val < off + (tot + got)
    · have hlow : tot ≤ (off + tot) / BSIZE * BSIZE + x.val - off := by
        unfold BSIZE at *
        omega
      have hj := hall _ hlow (by omega)
      rw [Nat.add_sub_cancel' hin.1] at hj
      rw [patch_in hin.1 hin.2, hj]
    · exact patch_out (by omega)

end

end Reported

variable {off tot : Nat}

section Reach

variable {src : Source}

/-- A round of the loop of `writei`, which copies `m` bytes: whether it is to go on. -/
def writeiRound (sb : Superblock) (e : Fin NINODE) (src : Source) (off tot m : Nat) :
    FsM Bool := do
  let addr ← bmap sb e (off / BSIZE)
  if addr = 0 then return false
  else do
    let data ← bread addr.toNat
    let got := min m (src.good tot m)
    let data := storeBytes data (off % BSIZE) got fun j => src.byte (tot + j)
    if got < m then do
      modify fun s => { s with disk := Function.update s.disk addr.toNat data }
      return false
    else do
      logWrite sb addr.toNat data
      return true

theorem writeiLoop_succ (htot : tot < n) (fuel : Nat) :
    writeiLoop sb e src n (fuel + 1) off tot = (do
      let go ← writeiRound sb e src off tot (piece n off tot)
      if go then writeiLoop sb e src n fuel (off + piece n off tot) (tot + piece n off tot)
      else return (tot, off)) := by
  rw [writeiLoop, if_pos htot, writeiRound, bind_assoc]
  congr 1
  funext addr
  by_cases h0 : addr = 0
  · rw [if_pos h0, if_pos h0]
    rfl
  rw [if_neg h0, if_neg h0, bind_assoc]
  congr 1
  funext data
  unfold piece
  simp only
  by_cases hgot : min (min (n - tot) (BSIZE - off % BSIZE))
      (src.good tot (min (n - tot) (BSIZE - off % BSIZE))) < min (n - tot) (BSIZE - off % BSIZE)
  · rw [if_pos hgot, if_pos hgot]
    rfl
  · rw [if_neg hgot, if_neg hgot, bind_assoc]
    rfl

theorem writeiLoop_ge (fuel off tot : Nat) :
    Wp Any (writeiLoop sb e src n fuel off tot) s fun r _ => tot ≤ r.1 := by
  have hdone : ∀ (s : State) (fuel off tot : Nat), n ≤ tot →
      Wp Any (writeiLoop sb e src n fuel off tot) s fun r _ => tot ≤ r.1 := by
    intro s fuel off tot hle
    rw [writeiLoop_done hle]
    exact le_rfl
  induction fuel generalizing s off tot with
  | zero =>
    by_cases htot : tot < n
    · rw [writeiLoop, if_pos htot]
      exact trivial
    · exact hdone s 0 off tot (not_lt.mp htot)
  | succ fuel ih =>
    by_cases htot : tot < n
    · rw [writeiLoop_succ htot, wp_bind]
      cases hx : writeiRound sb e src off tot (piece n off tot) s with
      | error x =>
        unfold Wp
        rw [hx]
        exact trivial
      | ok r =>
        apply Wp.of_ok hx
        cases r.1 with
        | false => exact le_rfl
        | true => exact (ih _ _).mono fun r _ hr => by omega
    · exact hdone s _ off tot (not_lt.mp htot)

/-- The loop writes the first `m` bytes if it does so when there are no more, where they end with a
block. -/
theorem writeiLoop_reaches {m : Nat} (hmn : m ≤ n) (fuel off tot : Nat) (htot : tot ≤ m)
    (hal : tot = m ∨ (off + (m - tot)) % BSIZE = 0) {r : Nat × Nat}
    (hrun : writeiLoop sb e src n fuel off tot s = .ok (r, s')) :
    m ≤ r.1 ↔ ∃ s1, writeiLoop sb e src m fuel off tot s = .ok ((m, off + (m - tot)), s1) := by
  -- nothing is left of the first `m` bytes
  have hdone : ∀ {s : State} {fuel off tot : Nat}, tot = m →
      writeiLoop sb e src n fuel off tot s = .ok (r, s') →
      (m ≤ r.1 ↔ ∃ s1, writeiLoop sb e src m fuel off tot s = .ok ((m, off + (m - tot)), s1)) := by
    intro s fuel off tot hm hrun
    have hge := (writeiLoop_ge fuel off tot).result hrun
    subst hm
    rw [writeiLoop_done le_rfl, Nat.sub_self]
    exact iff_of_true hge ⟨s, rfl⟩
  induction fuel generalizing s off tot with
  | zero =>
    by_cases hlt : tot < n
    · rw [writeiLoop, if_pos hlt] at hrun
      cases hrun
    · exact hdone (by omega) hrun
  | succ fuel ih =>
    by_cases hlt : tot < m
    · have hmod : off % BSIZE < BSIZE := mod_lt _ (by decide)
      have hpiece : piece n off tot = piece m off tot := by
        unfold piece BSIZE at *
        omega
      have hle : tot + piece m off tot ≤ m := by
        unfold piece
        omega
      rw [writeiLoop_succ (by omega), hpiece] at hrun
      rw [writeiLoop_succ hlt]
      obtain ⟨go, s1, hround, hrest⟩ := bind_ok hrun
      rw [run_bind_ok hround]
      cases go with
      | false =>
        cases hrest
        refine iff_of_false (not_le.mpr hlt) ?_
        rintro ⟨s2, h2⟩
        have htot : tot = m := congrArg (fun x => x.1.1) (Except.ok.inj h2)
        exact absurd htot hlt.ne
      | true =>
        have hoff : off + piece m off tot + (m - (tot + piece m off tot)) = off + (m - tot) := by
          omega
        have hnext := ih (off + piece m off tot) (tot + piece m off tot) hle
          (.inr (by rw [hoff]; exact hal.resolve_left (by omega))) hrest
        rw [hoff] at hnext
        exact hnext
    · exact hdone (by omega) hrun

theorem writei_loop {r : Int} (hgo : ¬ Refused (s.inode e).din.size.toNat off n)
    (hrun : writei sb e src off n s = .ok (r, s')) :
    ∃ x s1, writeiLoop sb e src n n off 0 s = .ok (x, s1) ∧ r = (x.1 : Int) := by
  unfold Refused at hgo
  rw [not_or, not_or] at hgo
  rw [writei] at hrun
  obtain ⟨ip, s0, hip, hrun⟩ := bind_ok hrun
  cases hip
  rw [if_neg (by rw [not_or]; exact ⟨hgo.1, hgo.2.1⟩), if_neg hgo.2.2] at hrun
  obtain ⟨x, s1, hloop, hrun⟩ := bind_ok hrun
  obtain ⟨_, s2, -, hrun⟩ := bind_ok hrun
  obtain ⟨_, s3, -, hrun⟩ := bind_ok hrun
  cases hrun
  exact ⟨x, s1, hloop, rfl⟩

end Reach

theorem failedAt_le (off good : Nat) : failedAt off good ≤ good := by
  have := div_mul_le_self (off + good) BSIZE
  unfold failedAt
  omega

theorem failedAt_block {good : Nat} (h : failedAt off good ≤ tot) (h' : tot ≤ good) :
    (off + tot) / BSIZE = (off + failedAt off good) / BSIZE := by
  unfold failedAt BSIZE at *
  omega

theorem failedAt_aligned (off good : Nat) :
    0 = failedAt off good ∨ (off + (failedAt off good - 0)) % BSIZE = 0 := by
  unfold failedAt BSIZE
  omega

/-- `writei` gets to a block whose bytes it cannot all copy, with `good` bytes readable: it accepts
the range, and there are blocks for what comes before. -/
def CopyFails (sb : Superblock) (s : State) (e : Fin NINODE) (src : Source) (off n good : Nat) :
    Prop :=
  ¬ Refused (s.inode e).din.size.toNat off n ∧ good < n ∧
    ∃ s1, writeiLoop sb e src (failedAt off good) n off 0 s =
      .ok ((failedAt off good, off + failedAt off good), s1)

theorem WriteDone.reaches {src : Source} {good : Nat} {r : Int}
    (hgood : good ≤ n) (hgo : ¬ Refused (s.inode e).din.size.toNat off n)
    (hrun : writei sb e src off n s = .ok (r, s')) (htot : r = (tot : Int)) :
    failedAt off good ≤ tot ↔ ∃ s1, writeiLoop sb e src (failedAt off good) n off 0 s =
      .ok ((failedAt off good, off + failedAt off good), s1) := by
  obtain ⟨x, s1, hloop, hx⟩ := writei_loop hgo hrun
  have htot' : tot = x.1 := by omega
  rw [htot', writeiLoop_reaches ((failedAt_le off good).trans hgood) n off 0 (Nat.zero_le _)
    (failedAt_aligned off good) hloop, Nat.sub_zero]

def onePage : UserMem := ⟨fun _ => 7, fun p => p == 0⟩

theorem demoOpen_clean : Clean demoOpen.disk demoOpen := fun _ _ => rfl

/-- What a write of a block from the last 512 bytes of the page comes to: its result, the first byte
of the file, the first byte of the buffer of block 47, and whether that one is logged. -/
theorem demoOpen_bad_write : ∃ s',
    writei Mkfs.sb e1 (onePage.source 3584) 0 1024 demoOpen = .ok (0, s') ∧
    seen Mkfs.sb s' e1 0 = some [7] ∧ s'.disk 47 0 = 7 ∧ 47 ∉ s'.lh := by
  have hrun : (writei Mkfs.sb e1 (onePage.source 3584) 0 1024 demoOpen).toOption.map (fun x =>
      (x.1, seen Mkfs.sb x.2 e1 0, x.2.disk 47 0, decide (47 ∈ x.2.lh))) =
      some (0, some [7], 7, false) := by
    decide +kernel
  cases hx : writei Mkfs.sb e1 (onePage.source 3584) 0 1024 demoOpen with
  | error x =>
    rw [hx] at hrun
    cases hrun
  | ok x =>
    rw [hx] at hrun
    injection hrun with hrun
    injection hrun with hret hrun
    injection hrun with hseen hrun
    injection hrun with hbuf hlog
    rw [← hret]
    exact ⟨x.2, rfl, hseen, hbuf, of_decide_eq_false hlog⟩

theorem demoOpen_first : seen Mkfs.sb demoOpen e1 0 = some [0] ∧ demoOpen.disk 47 0 = 0 := by
  decide +kernel

end Xv6.Fs
