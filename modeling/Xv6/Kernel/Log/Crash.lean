import Xv6.Framework.Transition
import Xv6.Kernel.Log.Commit

namespace Xv6.Log

open ByteCodec WriteTrace Function List Transition Device

def headCount (L : LogArea) (d : Disk) : UInt32 := u32.get (d L.start) 0

/-- Nothing is pending: the on-disk header count is zero and the home blocks are those of `t`. -/
structure Cleared (L : LogArea) (t d : Disk) : Prop where
  head : headCount L d = 0
  home : L.SameHome d t

/-- The transaction `lh` is on disk: header and log blocks are complete, and a home block can
only differ from `t` where the log will overwrite it. -/
structure Logged (L : LogArea) (lh : List UInt32) (t d : Disk) : Prop where
  head : readHead (d L.start) = lh
  body : ∀ i (hi : i < lh.length), d (L.start + i + 1) = t lh[i].toNat
  home : ∀ b, L.Home b → (∀ c ∈ lh, c.toNat ≠ b) → d b = t b

/-- The home blocks with the transaction's blocks replaced by their cached contents. -/
def replaced (lh : List UInt32) (cache d : Disk) : Disk :=
  fun b => if b ∈ lh.map UInt32.toNat then cache b else d b

section Writes

variable {L : LogArea} {lh : List UInt32} {t d : Disk}

theorem home_ne_start {b : Nat} (hb : L.Home b) : b ≠ L.start := by
  have := L.size_pos
  rcases hb with hb | hb <;> omega

theorem headCount_clear (blk : Block) : headCount L (update d L.start (putHead [] blk)) = 0 := by
  rw [headCount, update_self]
  exact Codec.get_put_self _ _ _ _ (by simp [BSIZE])

theorem readHead_of_clear (h : headCount L d = 0) : readHead (d L.start) = [] := by
  unfold headCount at h
  rw [readHead, h]
  rfl

theorem Cleared.write_log (h : Cleared L t d) (i : Nat) (hi : i + 1 < L.size) (v : Block) :
    Cleared L t (update d (L.start + i + 1) v) := by
  constructor
  · rw [headCount, update_of_ne (by omega)]
    exact h.head
  · intro b hb
    have hne : b ≠ L.start + i + 1 := by
      rcases hb with hb | hb <;> omega
    rw [update_of_ne hne]
    exact h.home b hb

theorem Cleared.write_head (h : Cleared L t d) (blk : Block) :
    Cleared L t (update d L.start (putHead [] blk)) := by
  constructor
  · exact headCount_clear blk
  · intro b hb
    have hne := home_ne_start hb
    rw [update_of_ne hne]
    exact h.home b hb

/-- One step of `install_trans`, in a commit or in a recovery, repeated or not. -/
theorem Logged.install (h : Logged L lh t d) (hlen : lh.length < L.size)
    (hhome : ∀ b ∈ lh, L.Home b.toNat) (b : UInt32) (hb : b ∈ lh) :
    Logged L lh t (update d b.toNat (t b.toNat)) := by
  have hbh := hhome b hb
  constructor
  · rw [update_of_ne (home_ne_start hbh).symm]
    exact h.head
  · intro i hi
    have hne : L.start + i + 1 ≠ b.toNat := by
      rcases hbh with hbh | hbh <;> omega
    rw [update_of_ne hne]
    exact h.body i hi
  · intro c hc hout
    have hne : c ≠ b.toNat := fun he => hout b hb he.symm
    rw [update_of_ne hne]
    exact h.home c hc hout

/-- Once every block is installed, clearing the header ends the transaction. -/
theorem Logged.finish (h : Logged L lh t d) (blk : Block)
    (hdone : ∀ b ∈ lh, d b.toNat = t b.toNat) :
    Cleared L t (update d L.start (putHead [] blk)) := by
  constructor
  · exact headCount_clear blk
  intro b hb
  have hne := home_ne_start hb
  rw [update_of_ne hne]
  by_cases hin : ∃ c ∈ lh, c.toNat = b
  · obtain ⟨c, hc, rfl⟩ := hin
    exact hdone c hc
  · push Not at hin
    exact h.home b hb hin

end Writes

/-- An in-memory header that `commit` may be handed: it fits the log and names no log block.
Distinctness of the entries is not needed. -/
structure Transaction (L : LogArea) where
  lh : List UInt32
  room : lh.length ≤ L.size - 1
  fits : lh.length ≤ LOGSIZE
  home : ∀ b ∈ lh, L.Home b.toNat

theorem Transaction.lt_size {L : LogArea} (x : Transaction L) : x.lh.length < L.size := by
  have := x.room
  have := L.size_pos
  omega

section LogBlocks

variable (L : LogArea) (cache d : Disk) (lh : List UInt32)

theorem logWrites_addr (tail : Nat) (w : Nat × Block) (hw : w ∈ logWrites L cache lh tail) :
    L.start + tail < w.1 ∧ w.1 ≤ L.start + tail + lh.length := by
  induction lh generalizing tail with
  | nil => simp [logWrites] at hw
  | cons b bs ih =>
    simp only [logWrites, mem_cons, length_cons] at hw ⊢
    rcases hw with rfl | hw
    · dsimp only
      omega
    · have := ih (tail + 1) hw
      omega

theorem logWrites_frame (tail a : Nat) (ha : a ≤ L.start + tail) :
    applyWrites (logWrites L cache lh tail) d a = d a := by
  refine invariant (fun e => e a = d a) _ d rfl ?_
  intro w hw e he
  have := (logWrites_addr L cache lh tail w hw).1
  rw [update_of_ne (by omega), he]

theorem logWrites_body (tail i : Nat) (hi : i < lh.length) :
    applyWrites (logWrites L cache lh tail) d (L.start + (tail + i) + 1) = cache lh[i].toNat := by
  induction lh generalizing tail i d with
  | nil => simp at hi
  | cons b bs ih =>
    rw [logWrites, applyWrites_cons]
    cases i with
    | zero => simp [logWrites_frame L cache _ bs (tail + 1) _ (by omega : L.start + tail + 1 ≤ _)]
    | succ i =>
      have h := ih (update d (L.start + tail + 1) (cache b.toNat)) (tail + 1) i (by simpa using hi)
      simpa [Nat.add_assoc, Nat.add_comm 1 i] using h

end LogBlocks

section Runs

variable {L : LogArea} (x : Transaction L) {t d : Disk}

theorem homeWrites_mem {w : Nat × Block} (hw : w ∈ homeWrites t x.lh) :
    ∃ b ∈ x.lh, w = (b.toNat, t b.toNat) := by
  obtain ⟨b, hb, rfl⟩ := mem_map.mp hw
  exact ⟨b, hb, rfl⟩

section

variable (h : Logged L x.lh t d)
include h

theorem homeWrites_logged (k : Nat) :
    Logged L x.lh t (applyWrites ((homeWrites t x.lh).take k) d) := by
  refine take_invariant _ _ d h ?_ k
  intro w hw e he
  obtain ⟨b, hb, rfl⟩ := homeWrites_mem x hw
  exact he.install x.lt_size x.home b hb

omit h in
theorem homeWrites_done (lh : List UInt32) (b : UInt32) (hb : b ∈ lh) :
    applyWrites (homeWrites t lh) d b.toNat = t b.toNat := by
  induction lh generalizing d with
  | nil => simp at hb
  | cons c cs ih =>
    rw [homeWrites, map_cons, applyWrites_cons]
    by_cases hin : b ∈ cs
    · exact ih hin
    have hbc : b = c := by simpa [hin] using hb
    subst hbc
    refine invariant (fun e => e b.toNat = t b.toNat) _ _ (by simp) ?_
    intro w hw e he
    obtain ⟨a, _, rfl⟩ := mem_map.mp hw
    by_cases hab : b.toNat = a.toNat
    · simp [hab]
    · simpa [update_of_ne hab] using he

/-- The writes of an installation that ends by clearing the header: every cut leaves the
transaction on disk or finished, and the whole of it leaves it finished. -/
theorem install_cut (blk : Block) (k : Nat) :
    let ws := homeWrites t x.lh ++ [(L.start, putHead [] blk)]
    Logged L x.lh t (applyWrites (ws.take k) d) ∨ Cleared L t (applyWrites (ws.take k) d) := by
  intro ws
  rcases take_append_cases (homeWrites t x.lh) [(L.start, putHead [] blk)] d k with
    ⟨_, he⟩ | ⟨hk, he⟩
  · left
    rw [he]
    exact homeWrites_logged x h k
  · right
    rw [he, take_of_length_le (by simp; omega)]
    have hall := homeWrites_logged x h (homeWrites t x.lh).length
    rw [take_length] at hall
    exact hall.finish blk (homeWrites_done x.lh)

theorem install_whole (blk : Block) :
    Cleared L t (applyWrites (homeWrites t x.lh ++ [(L.start, putHead [] blk)]) d) := by
  have hall := homeWrites_logged x h (homeWrites t x.lh).length
  rw [take_length] at hall
  rw [applyWrites_append]
  exact hall.finish blk (homeWrites_done x.lh)

theorem recover_of_logged :
    ∃ blk, recoverFromLog L (boot d) =
      (boot d).extend (homeWrites t x.lh ++ [(L.start, putHead [] blk)]) := by
  have hi := installTrans_eq L t x.lh 0 (boot d) x.home (by have := x.lt_size; omega)
    (by simpa [boot] using h.body)
  refine ⟨applyWrites (homeWrites t x.lh) d L.start, ?_⟩
  rw [recoverFromLog, show readHead ((boot d).store L.start) = x.lh from h.head, hi,
    writeHead, write_eq_extend, extend_extend]
  rfl

end

theorem recover_of_cleared (h : Cleared L t d) :
    recoverFromLog L (boot d) =
      (boot d).extend [(L.start, putHead [] (d L.start))] := by
  rw [recoverFromLog, show readHead ((boot d).store L.start) = [] from
    readHead_of_clear h.head]
  rfl

/-- A disk from which recovery brings back the home blocks of `t`. -/
def Recoverable (L : LogArea) (t d : Disk) : Prop :=
  Cleared L t d ∨ ∃ x : Transaction L, Logged L x.lh t d

/-- A recovery cut short anywhere can be started over. -/
theorem Recoverable.crash (h : Recoverable L t d) (k : Nat) :
    Recoverable L t (WriteTrace.crash k (recoverFromLog L) d) := by
  rcases h with h | ⟨x, h⟩
  · left
    rw [WriteTrace.crash, recover_of_cleared h, boot_extend_issued]
    refine take_invariant _ _ d h ?_ k
    intro w hw e he
    rw [mem_singleton.mp hw]
    exact he.write_head _
  · obtain ⟨blk, he⟩ := recover_of_logged x h
    rw [WriteTrace.crash, he, boot_extend_issued]
    rcases install_cut x h blk k with hl | hc
    · exact Or.inr ⟨x, hl⟩
    · exact Or.inl hc

theorem Recoverable.recovered (h : Recoverable L t d) : Cleared L t (recovered L d) := by
  rcases h with h | ⟨x, h⟩
  · rw [Log.recovered, recover_of_cleared h]
    exact h.write_head _
  · obtain ⟨blk, he⟩ := recover_of_logged x h
    rw [Log.recovered, he]
    exact install_whole x h blk

theorem Recoverable.crashes (h : Recoverable L t d) (ks : List Nat) :
    Recoverable L t (ks.foldl (fun e j => WriteTrace.crash j (recoverFromLog L) e) d) := by
  induction ks generalizing d with
  | nil => exact h
  | cons k ks ih => exact ih (h.crash k)

/-- The whole of `commit` issues the log blocks, the header, the home blocks, and the header
again with a zero count. -/
theorem commit_issued (cache : Disk) (hn : 0 < x.lh.length) :
    ∃ b1 b2, commit L x.lh cache (boot d) = (boot d).extend
      (logWrites L cache x.lh 0 ++ ((L.start, putHead x.lh b1) ::
        (homeWrites (replaced x.lh cache d) x.lh ++ [(L.start, putHead [] b2)]))) := by
  have hbody : ∀ i (hi : i < x.lh.length), ((boot d).extend (logWrites L cache x.lh 0 ++
        [(L.start, putHead x.lh (applyWrites (logWrites L cache x.lh 0) d L.start))])).store
        (L.start + (0 + i) + 1) = replaced x.lh cache d x.lh[i].toNat := by
    intro i hi
    have hin : x.lh[i].toNat ∈ x.lh.map UInt32.toNat := mem_map_of_mem (getElem_mem hi)
    rw [extend_store, applyWrites_append, applyWrites_cons, applyWrites_nil,
      update_of_ne (by dsimp only; omega), boot,
      logWrites_body L cache d x.lh 0 i hi, replaced, if_pos hin]
  have hi := installTrans_eq L (replaced x.lh cache d) x.lh 0 _ x.home
    (by have := x.lt_size; omega) hbody
  refine ⟨applyWrites (logWrites L cache x.lh 0) d L.start,
    applyWrites (logWrites L cache x.lh 0 ++ ((L.start, putHead x.lh
      (applyWrites (logWrites L cache x.lh 0) d L.start)) ::
        homeWrites (replaced x.lh cache d) x.lh)) d L.start, ?_⟩
  have hhead : writeHead L x.lh (writeLog L cache x.lh 0 (boot d)) =
      (boot d).extend (logWrites L cache x.lh 0 ++
        [(L.start, putHead x.lh (applyWrites (logWrites L cache x.lh 0) d L.start))]) := by
    rw [writeLog_eq, writeHead, write_eq_extend, extend_extend]
    rfl
  rw [commit, if_pos hn, hhead, hi, extend_extend, writeHead, write_eq_extend,
    extend_extend]
  simp [boot]

theorem logWrites_cleared (cache : Disk) (h : Cleared L t d) (k : Nat) :
    Cleared L t (applyWrites ((logWrites L cache x.lh 0).take k) d) := by
  refine take_invariant _ _ d h ?_ k
  intro w hw e he
  obtain ⟨hl, hu⟩ := logWrites_addr L cache x.lh 0 w hw
  have hs := x.lt_size
  have ha : w.1 = L.start + (w.1 - L.start - 1) + 1 := by omega
  rw [ha]
  exact he.write_log _ (by omega) _

/-- The header write commits: from then on the log stands for the replaced blocks. -/
theorem logged_of_writeHead (cache : Disk) (hd : headCount L d = 0) (blk : Block) :
    Logged L x.lh (replaced x.lh cache d) (update
      (applyWrites (logWrites L cache x.lh 0) d) L.start (putHead x.lh blk)) := by
  have hc : Cleared L d (applyWrites (logWrites L cache x.lh 0) d) := by
    have h := logWrites_cleared x cache (t := d) ⟨hd, fun _ _ => rfl⟩ (logWrites L cache x.lh 0).length
    rwa [take_length] at h
  constructor
  · rw [update_self]
    exact readHead_putHead x.lh blk x.fits
  · intro i hi
    have hin : x.lh[i].toNat ∈ x.lh.map UInt32.toNat := mem_map_of_mem (getElem_mem hi)
    have hb := logWrites_body L cache d x.lh 0 i hi
    rw [Nat.zero_add] at hb
    rw [update_of_ne (by omega), hb, replaced, if_pos hin]
  intro b hb hout
  have hne := home_ne_start hb
  have hin : b ∉ x.lh.map UInt32.toNat := by
    intro hm
    obtain ⟨c, hc, he⟩ := mem_map.mp hm
    exact hout c hc he
  rw [update_of_ne hne, hc.home b hb, replaced, if_neg hin]

/-- The first header write of a commit is among the `k` writes that reached the disk. -/
def HeadReached (L : LogArea) (lh : List UInt32) (cache d : Disk) (k : Nat) : Prop :=
  ∃ w ∈ (commit L lh cache (Device.boot d)).issued.take k, w.1 = L.start

/-- A commit cut before its header write changed no home block; cut after it, the log or the
home blocks hold all of it. -/
theorem commit_cut (cache : Disk) (hd : headCount L d = 0) (k : Nat) :
    (HeadReached L x.lh cache d k →
      Recoverable L (replaced x.lh cache d) (WriteTrace.crash k (commit L x.lh cache) d)) ∧
    (¬ HeadReached L x.lh cache d k →
      Recoverable L d (WriteTrace.crash k (commit L x.lh cache) d)) := by
  have h0 : Cleared L d d := ⟨hd, fun _ _ => rfl⟩
  rcases Nat.eq_zero_or_pos x.lh.length with hn | hn
  · have he : (commit L x.lh cache (boot d)).issued = [] := by
      rw [commit, if_neg (by omega)]
      rfl
    refine ⟨?_, fun _ => ?_⟩
    · rintro ⟨w, hw, _⟩
      simp [he] at hw
    · left
      simpa [WriteTrace.crash, he] using h0
  obtain ⟨b1, b2, he⟩ := commit_issued x (d := d) cache hn
  have hi : (commit L x.lh cache (boot d)).issued = _ :=
    (congrArg issued he).trans (boot_extend_issued d _)
  rw [HeadReached, WriteTrace.crash, hi]
  rcases take_append_cases (logWrites L cache x.lh 0) ((L.start, putHead x.lh b1) ::
    (homeWrites (replaced x.lh cache d) x.lh ++ [(L.start, putHead [] b2)])) d k with
    ⟨hk, ht⟩ | ⟨hk, ht⟩
  · rw [ht]
    refine ⟨?_, fun _ => Or.inl (logWrites_cleared x cache h0 k)⟩
    rintro ⟨w, hw, hs⟩
    rw [take_append_of_le_length hk] at hw
    have := (logWrites_addr L cache x.lh 0 w (mem_of_mem_take hw)).1
    omega
  rw [ht]
  obtain ⟨j, hj⟩ : ∃ j, k - (logWrites L cache x.lh 0).length = j + 1 :=
    ⟨k - (logWrites L cache x.lh 0).length - 1, by omega⟩
  have hr : ∃ w ∈ (logWrites L cache x.lh 0 ++ ((L.start, putHead x.lh b1) ::
      (homeWrites (replaced x.lh cache d) x.lh ++ [(L.start, putHead [] b2)]))).take k,
      w.1 = L.start := by
    refine ⟨(L.start, putHead x.lh b1), ?_, rfl⟩
    rw [take_append, hj, take_succ_cons]
    simp
  refine ⟨fun _ => ?_, fun h => absurd hr h⟩
  rw [hj, take_succ_cons, applyWrites_cons]
  rcases install_cut x (logged_of_writeHead x cache hd b1) b2 j with hl | hc
  · exact Or.inr ⟨x, hl⟩
  · exact Or.inl hc

theorem commit_cleared (cache : Disk) (hd : headCount L d = 0) :
    Cleared L (replaced x.lh cache d) (commit L x.lh cache (boot d)).store := by
  rcases Nat.eq_zero_or_pos x.lh.length with hn | hn
  · rw [commit, if_neg (by omega), length_eq_zero_iff.mp hn]
    exact ⟨hd, fun _ _ => rfl⟩
  · obtain ⟨b1, b2, he⟩ := commit_issued x (d := d) cache hn
    rw [he, extend_store, applyWrites_append, applyWrites_cons]
    exact install_whole x (logged_of_writeHead x cache hd b1) b2

end Runs

/-- The disks the log layer leaves between transactions: `initlog` has recovered, and any number
of commits have completed since. -/
inductive Idle (L : LogArea) : Disk → Prop
  | initlog (d : Disk) : Idle L (recovered L d)
  | commit (x : Transaction L) (cache : Disk) {d : Disk} (h : Idle L d) :
      Idle L (commit L x.lh cache (Device.boot d)).store

theorem Idle.headCount_eq_zero {L : LogArea} {d : Disk} (h : Idle L d) : headCount L d = 0 := by
  induction h with
  | initlog d => exact headCount_clear _
  | commit x cache _ ih => exact (commit_cleared x cache ih).head

/-- Crash atomicity of the redo log: `commit` is cut after any `k` of its writes, recovery is cut
any number of times at the points `ks`, and then runs to its end. -/
theorem commit_crash_atomic (L : LogArea) (x : Transaction L) (cache d : Disk) (hd : Idle L d)
    (k : Nat) (ks : List Nat) :
    let left := crash k (commit L x.lh cache) d
    let fin := recovered L (ks.foldl (fun e j => crash j (recoverFromLog L) e) left)
    let after := replaced x.lh cache d
    (¬ HeadReached L x.lh cache d k → L.SameHome fin d) ∧
    (HeadReached L x.lh cache d k → L.SameHome fin after) ∧
    (¬ L.SameHome d after → (L.SameHome fin d ↔ ¬ HeadReached L x.lh cache d k)) ∧
    headCount L fin = 0 := by
  intro left fin after
  obtain ⟨hyes, hno⟩ := commit_cut x cache hd.headCount_eq_zero k
  have hy (h : HeadReached L x.lh cache d k) : Cleared L after fin := ((hyes h).crashes ks).recovered
  have hn (h : ¬ HeadReached L x.lh cache d k) : Cleared L d fin := ((hno h).crashes ks).recovered
  refine ⟨fun h => (hn h).home, fun h => (hy h).home, ?_, ?_⟩
  · refine fun hne => ⟨fun hs hr => hne ?_, fun h => (hn h).home⟩
    exact fun b hb => (hs b hb).symm.trans ((hy hr).home b hb)
  · by_cases hr : HeadReached L x.lh cache d k
    · exact (hy hr).head
    · exact (hn hr).head

/-- Two blocks, the crash right after the header write, two interrupted recoveries: both blocks
arrive. -/
theorem commit_crash_atomic_two_blocks :
    let L : LogArea := ⟨2, 30, by decide⟩
    let x : Transaction L := ⟨[40, 41], by decide, by decide, by simp [LogArea.Home, L]⟩
    let cache : Disk := fun b _ => UInt8.ofNat b
    let d := recovered L (fun _ _ => 0)
    let left := crash 3 (commit L x.lh cache) d
    let fin := recovered L ([1, 0].foldl (fun e j => crash j (recoverFromLog L) e) left)
    Idle L d ∧ HeadReached L x.lh cache d 3 ∧ fin 40 = (fun _ => 40) ∧ fin 41 = (fun _ => 41) ∧
      headCount L fin = 0 := by
  intro L x cache d left fin
  have hr : HeadReached L x.lh cache d 3 := by
    refine ⟨(2, putHead [40, 41] (applyWrites (logWrites L cache [40, 41] 0) d 2)), ?_, rfl⟩
    simp [commit, writeLog, writeHead, installTrans, Device.write, Device.boot, logWrites, x, L]
  have h := commit_crash_atomic L x cache d (.initlog _) 3 [1, 0]
  have hhome : L.SameHome fin (replaced x.lh cache d) := h.2.1 hr
  refine ⟨.initlog _, hr, ?_, ?_, h.2.2.2⟩
  · exact (hhome 40 (Or.inr (by decide))).trans rfl
  · exact (hhome 41 (Or.inr (by decide))).trans rfl

/-- The disk after a crash in a commit, and recoveries of which all but the last are cut. -/
def crashed (L : LogArea) (lh : List UInt32) (cache d : Disk) (k : Nat) (ks : List Nat) : Disk :=
  recovered L (ks.foldl (fun e j => crash j (recoverFromLog L) e) (crash k (commit L lh cache) d))

/-- A commit that ends or is cut, labelled with the transaction if its header was written. -/
inductive Commits (L : LogArea) (d : Disk) : Option (Transaction L × Disk) → Disk → Prop
  | done (x : Transaction L) (cache : Disk) :
      Commits L d (some (x, cache)) (commit L x.lh cache (Device.boot d)).store
  | kept (x : Transaction L) (cache : Disk) (k : Nat) (ks : List Nat)
      (head : HeadReached L x.lh cache d k) :
      Commits L d (some (x, cache)) (crashed L x.lh cache d k ks)
  | lost (x : Transaction L) (cache : Disk) (k : Nat) (ks : List Nat)
      (head : ¬ HeadReached L x.lh cache d k) : Commits L d none (crashed L x.lh cache d k ks)

/-- The transactions that were not lost, one after the other. -/
def applied {L : LogArea} (d : Disk) (txs : List (Option (Transaction L × Disk))) : Disk :=
  txs.foldl (fun t tx => tx.elim t fun x => replaced x.1.lh x.2 t) d

section History

variable {L : LogArea} {d t u : Disk}

theorem Cleared.of_home (h : Cleared L u d) (hs : L.SameHome u t) : Cleared L t d :=
  ⟨h.head, fun b hb => (h.home b hb).trans (hs b hb)⟩

theorem replaced_home {lh : List UInt32} {cache : Disk} (h : L.SameHome d t) :
    L.SameHome (replaced lh cache d) (replaced lh cache t) := by
  intro b hb
  rw [replaced, replaced, h b hb]

/-- The disk with its log is an atomic disk. Through any number of commits, crashes and interrupted
recoveries, the home blocks are what those transactions make of them, in their order, whose header
was written, as if the others had never begun. -/
theorem log_is_atomic_disk (hd : Idle L d) {txs : List (Option (Transaction L × Disk))}
    (hrun : Run (Commits L) d txs t) : L.SameHome t (applied d txs) ∧ headCount L t = 0 := by
  suffices h : Cleared L (applied d txs) t from ⟨h.home, h.head⟩
  induction hrun with
  | refl => exact ⟨hd.headCount_eq_zero, fun _ _ => rfl⟩
  | snoc _ hc ih =>
    rw [applied, foldl_append]
    cases hc with
    | done x cache => exact (commit_cleared x cache ih.head).of_home (replaced_home ih.home)
    | kept x cache k ks head =>
      have hr := (commit_cut x cache ih.head k).1 head
      exact (hr.crashes ks).recovered.of_home (replaced_home ih.home)
    | lost x cache k ks head =>
      have hr := (commit_cut x cache ih.head k).2 head
      exact (hr.crashes ks).recovered.of_home ih.home

/-- A transaction is committed, and the next one is lost when its block is in the log. -/
theorem log_is_atomic_disk_two :
    let L : LogArea := ⟨2, 30, by decide⟩
    let x : Transaction L := ⟨[40], by decide, by decide, by simp [LogArea.Home, L]⟩
    ∃ d t : Disk, Run (Commits L) d [some (x, fun _ _ => 1), none] t ∧ t 40 = fun _ => 1 := by
  intro L x
  have hlost (d : Disk) : ¬ HeadReached L x.lh (fun _ _ => 2) d 1 := by
    simp [HeadReached, commit, writeLog, writeHead, installTrans, Device.write, Device.boot, x, L]
  have hrun : Run (Commits L) (recovered L fun _ _ => 0) _ _ :=
    .snoc (.snoc .refl (.done x fun _ _ => 1)) (.lost x _ 1 [0] (hlost _))
  exact ⟨_, _, hrun, (log_is_atomic_disk (.initlog _) hrun).1 40 (.inr (by decide))⟩

end History

end Xv6.Log
