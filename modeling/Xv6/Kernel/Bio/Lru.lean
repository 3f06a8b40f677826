import Xv6.Kernel.Bio.Bcache

namespace Xv6.Bio

open Ring Transition Function List

variable {P : Type}

/-- The cache and its callers: who is between `bget` and `brelse` of a buffer, how often it is
pinned, and when it was last released (0 for never). -/
structure CacheState (P : Type) where
  cache : Bcache
  holders : Fin NBUF → List P
  pins : Fin NBUF → Nat
  released : Fin NBUF → Nat
  clock : Nat

def CacheState.init (P : Type) : CacheState P :=
  ⟨binit, fun _ => [], fun _ => 0, fun _ => 0, 0⟩

inductive Label (P : Type)
  | bget (p : P) (dev blockno : Nat)
  | brelse (p : P) (i : Fin NBUF)
  | bpin (i : Fin NBUF)
  | bunpin (p : P) (i : Fin NBUF)

/-- One call. Refused are device 0 and unpinning what the caller does not hold or nobody
pinned. -/
def step [DecidableEq P] (s : CacheState P) : Label P → Option (Except Panic (CacheState P))
  | .bget p dev blockno =>
      if dev = 0 then none
      else match bget s.cache dev blockno with
        | .ok (i, c) =>
            some (.ok { s with
              cache := c, holders := update s.holders i (p :: s.holders i) })
        | .error e => some (.error e)
  | .brelse p i =>
      if p ∈ s.holders i then
        some (.ok { s with
          cache := brelse s.cache i
          holders := update s.holders i ((s.holders i).erase p)
          released := update s.released i (s.clock + 1)
          clock := s.clock + 1 })
      else some (.error .brelse)
  | .bpin i =>
      some (.ok { s with
        cache := bpin s.cache i, pins := update s.pins i (s.pins i + 1) })
  | .bunpin p i =>
      if p ∈ s.holders i ∧ 0 < s.pins i then
        some (.ok { s with
          cache := bunpin s.cache i, pins := update s.pins i (s.pins i - 1) })
      else none

def Step [DecidableEq P] (s : CacheState P) (l : Label P) (t : CacheState P) : Prop := step s l = some (.ok t)

/-- Of two free buffers the one nearer the head was released later. -/
def Before (s : CacheState P) (i j : Fin NBUF) : Prop :=
  (s.cache.buf i).refcnt = 0 → (s.cache.buf j).refcnt = 0 →
    s.released j ≤ s.released i ∧ (0 < s.released j → s.released j < s.released i)

structure Inv (s : CacheState P) : Prop where
  list : ∃ xs, s.cache.Lists xs ∧ (∀ i, i ∈ xs) ∧ xs.Pairwise (Before s)
  unique : ∀ i j, (s.cache.buf i).dev ≠ 0 → (s.cache.buf i).dev = (s.cache.buf j).dev →
    (s.cache.buf i).blockno = (s.cache.buf j).blockno → i = j
  refs : ∀ i, (s.cache.buf i).refcnt = (s.holders i).length + s.pins i
  past : ∀ i, s.released i ≤ s.clock

section

variable {c : Bcache} {xs : List (Fin NBUF)} (h : c.Lists xs)
include h

theorem scan_lists_next (p : Buf → Bool) :
    scan c.next head (c.test p) (NBUF + 1) (c.next head) =
      some ((xs.find? fun i => p (c.buf i)).map some) := by
  have hl : xs.length ≤ NBUF := by simpa using h.nodup.length_le_card
  rw [scan_ring_next _ h _ (by simpa using Nat.lt_succ_of_le hl), find?_map]
  rfl

theorem scan_lists_prev (p : Buf → Bool) :
    scan c.prev head (c.test p) (NBUF + 1) (c.prev head) =
      some ((xs.reverse.find? fun i => p (c.buf i)).map some) := by
  have hl : xs.length ≤ NBUF := by simpa using h.nodup.length_le_card
  rw [scan_ring_prev _ h _ (by simpa using Nat.lt_succ_of_le hl), ← map_reverse, find?_map]
  rfl

/-- What `bget` does on a well-linked list: it finds the block, recycles the free buffer nearest
the end of the list, or panics because every buffer is in use. -/
theorem bget_cases (hall : ∀ i, i ∈ xs) (dev blockno : Nat) :
    (∃ i, ((c.buf i).dev = dev ∧ (c.buf i).blockno = blockno) ∧
      bget c dev blockno = .ok (i, c.setBuf i { c.buf i with refcnt := (c.buf i).refcnt + 1 })) ∨
    ((∀ i, ¬ ((c.buf i).dev = dev ∧ (c.buf i).blockno = blockno)) ∧
      ∃ i, xs.reverse.find? (fun i => decide ((c.buf i).refcnt = 0)) = some i ∧
        bget c dev blockno = .ok (i, c.setBuf i
          { c.buf i with dev := dev, blockno := blockno, valid := false, refcnt := 1 })) ∨
    ((∀ i, ¬ ((c.buf i).dev = dev ∧ (c.buf i).blockno = blockno)) ∧
      (∀ i, (c.buf i).refcnt ≠ 0) ∧ bget c dev blockno = .error .noBuffers) := by
  have hn := scan_lists_next h fun b => b.dev = dev ∧ b.blockno = blockno
  have hp := scan_lists_prev h fun b => b.refcnt = 0
  cases hf : xs.find? fun i => decide ((c.buf i).dev = dev ∧ (c.buf i).blockno = blockno) with
  | some i =>
    left
    have hi := find?_some hf
    refine ⟨i, of_decide_eq_true hi, ?_⟩
    rw [bget, hn, hf]
    rfl
  | none =>
    right
    have hmiss : ∀ i, ¬ ((c.buf i).dev = dev ∧ (c.buf i).blockno = blockno) := by
      intro i hi
      exact find?_eq_none.mp hf i (hall i) (decide_eq_true hi)
    cases hv : xs.reverse.find? fun i => decide ((c.buf i).refcnt = 0) with
    | some i =>
      left
      refine ⟨hmiss, i, rfl, ?_⟩
      rw [bget, hn, hf, hp, hv]
      rfl
    | none =>
      right
      refine ⟨hmiss, ?_, ?_⟩
      · intro i hi
        exact find?_eq_none.mp hv i (mem_reverse.mpr (hall i)) (decide_eq_true hi)
      · rw [bget, hn, hf, hp, hv]
        rfl

end

/-- The buffer `bget` recycles is free, and no free buffer was released earlier. -/
theorem victim_oldest {s : CacheState P} {xs : List (Fin NBUF)} {v : Fin NBUF}
    (hall : ∀ i, i ∈ xs) (hord : xs.Pairwise (Before s))
    (hv : xs.reverse.find? (fun i => decide ((s.cache.buf i).refcnt = 0)) = some v) :
    (s.cache.buf v).refcnt = 0 ∧
      ∀ j, (s.cache.buf j).refcnt = 0 → s.released v ≤ s.released j := by
  obtain ⟨hz, as, bs, hxs, has⟩ := find?_eq_some_iff_append.mp hv
  have hz : (s.cache.buf v).refcnt = 0 := of_decide_eq_true hz
  refine ⟨hz, ?_⟩
  intro j hj
  have hrev := pairwise_reverse.mpr hord
  rw [hxs, pairwise_append, pairwise_cons] at hrev
  have hmem : j ∈ as ++ v :: bs := hxs ▸ mem_reverse.mpr (hall j)
  rcases mem_append.mp hmem with hm | hm
  · have := has j hm
    simp [hj] at this
  · rcases mem_cons.mp hm with rfl | hm
    · exact Nat.le_refl _
    · exact (hrev.2.1.1 j hm hj hz).1

section Steps

variable {s : CacheState P}

/-- The links and the order survive as long as no buffer becomes free and release times of free
buffers stand. -/
theorem Inv.keep_list (h : Inv s) {t : CacheState P}
    (hnext : t.cache.next = s.cache.next) (hprev : t.cache.prev = s.cache.prev)
    (hfree : ∀ i, (t.cache.buf i).refcnt = 0 →
      (s.cache.buf i).refcnt = 0 ∧ t.released i = s.released i) :
    ∃ xs, t.cache.Lists xs ∧ (∀ i, i ∈ xs) ∧ xs.Pairwise (Before t) := by
  obtain ⟨xs, hl, hall, hord⟩ := h.list
  refine ⟨xs, ?_, hall, ?_⟩
  · rw [Bcache.Lists, hnext, hprev]
    exact hl
  refine hord.imp ?_
  intro i j hb hi hj
  obtain ⟨hi, hri⟩ := hfree i hi
  obtain ⟨hj, hrj⟩ := hfree j hj
  rw [hri, hrj]
  exact hb hi hj

theorem init_inv : Inv (CacheState.init P) := by
  obtain ⟨xs, hl, hall⟩ := binit_lists
  constructor
  · refine ⟨xs, hl, hall, ?_⟩
    refine pairwise_of_forall ?_
    intro i j _ _
    simp [CacheState.init]
  · intro i j hi
    simp [CacheState.init, binit_buf] at hi
  · intro i
    simp [CacheState.init, binit_buf]
  · intro i
    simp [CacheState.init]

theorem Inv.free_of_setBuf (i j : Fin NBUF) (b : Buf) (hb : b.refcnt ≠ 0)
    (hj : (update s.cache.buf i b j).refcnt = 0) : j ≠ i ∧ (s.cache.buf j).refcnt = 0 := by
  have hne : j ≠ i := by
    rintro rfl
    rw [update_self] at hj
    exact hb hj
  rw [update_of_ne hne] at hj
  exact ⟨hne, hj⟩

variable (h : Inv s)
include h

theorem bget_inv (p : P) (dev blockno : Nat) (i : Fin NBUF) (c : Bcache)
    (hc : bget s.cache dev blockno = .ok (i, c)) :
    Inv { s with cache := c, holders := update s.holders i (p :: s.holders i) } := by
  obtain ⟨xs, hl, hall, hord⟩ := h.list
  rcases bget_cases hl hall dev blockno with ⟨j, hj, he⟩ | ⟨hmiss, j, hv, he⟩ | ⟨_, _, he⟩
  · rw [he] at hc
    cases hc
    constructor
    · refine h.keep_list rfl rfl ?_
      intro k hk
      exact ⟨(Inv.free_of_setBuf i k _ (by simp) hk).2, rfl⟩
    · intro a b ha hab hbb
      have same (k : Fin NBUF) :
          ((s.cache.setBuf i { s.cache.buf i with refcnt := (s.cache.buf i).refcnt + 1 }).buf k).dev =
            (s.cache.buf k).dev ∧
          ((s.cache.setBuf i { s.cache.buf i with refcnt := (s.cache.buf i).refcnt + 1 }).buf k).blockno =
            (s.cache.buf k).blockno := by
        by_cases hk : k = i
        · subst hk
          simp [Bcache.setBuf]
        · simp [Bcache.setBuf, hk]
      rw [(same a).1] at ha hab
      rw [(same b).1] at hab
      rw [(same a).2, (same b).2] at hbb
      exact h.unique a b ha hab hbb
    · intro k
      have hk := h.refs k
      by_cases hki : k = i
      · subst hki
        simp [Bcache.setBuf]
        omega
      · simpa [Bcache.setBuf, hki] using hk
    · exact h.past
  · rw [he] at hc
    cases hc
    have hz := (victim_oldest hall hord hv).1
    have hr := h.refs i
    have hh : s.holders i = [] := eq_nil_of_length_eq_zero (by omega)
    constructor
    · refine h.keep_list rfl rfl ?_
      intro k hk
      exact ⟨(Inv.free_of_setBuf i k _ (by simp) hk).2, rfl⟩
    · intro a b ha hab hbb
      by_cases hai : a = i
      · subst hai
        by_contra hne
        have hba : b ≠ a := fun he => hne he.symm
        simp only [Bcache.setBuf, update_self, update_of_ne hba] at hab hbb
        exact hmiss b ⟨hab.symm, hbb.symm⟩
      by_cases hbi : b = i
      · subst hbi
        simp only [Bcache.setBuf, update_self, update_of_ne hai] at hab hbb
        exact absurd ⟨hab, hbb⟩ (hmiss a)
      · simp only [Bcache.setBuf, update_of_ne hai, update_of_ne hbi] at ha hab hbb
        exact h.unique a b ha hab hbb
    · intro k
      have hk := h.refs k
      by_cases hki : k = i
      · subst hki
        simp [Bcache.setBuf, hh]
        omega
      · simpa [Bcache.setBuf, hki] using hk
    · exact h.past
  · rw [he] at hc
    cases hc

theorem bget_keeps (dev blockno : Nat) (i : Fin NBUF) (c : Bcache)
    (hc : bget s.cache dev blockno = .ok (i, c)) (k : Fin NBUF) (hk : 0 < (s.cache.buf k).refcnt) :
    (c.buf k).dev = (s.cache.buf k).dev ∧ (c.buf k).blockno = (s.cache.buf k).blockno := by
  obtain ⟨xs, hl, hall, hord⟩ := h.list
  rcases bget_cases hl hall dev blockno with ⟨j, hj, he⟩ | ⟨_, j, hv, he⟩ | ⟨_, _, he⟩
  · rw [he] at hc
    cases hc
    by_cases hki : k = i
    · subst hki
      simp [Bcache.setBuf]
    · simp [Bcache.setBuf, hki]
  · rw [he] at hc
    cases hc
    have hz := (victim_oldest hall hord hv).1
    have hki : k ≠ i := by
      rintro rfl
      omega
    simp [Bcache.setBuf, hki]
  · rw [he] at hc
    cases hc

theorem Inv.recount (t : CacheState P) (i : Fin NBUF) (n : Nat)
    (hbuf : t.cache.buf = update s.cache.buf i { s.cache.buf i with refcnt := n })
    (hrefs : n = (t.holders i).length + t.pins i)
    (hrest : ∀ k, k ≠ i → t.holders k = s.holders k ∧ t.pins k = s.pins k) :
    (∀ a b, (t.cache.buf a).dev ≠ 0 → (t.cache.buf a).dev = (t.cache.buf b).dev →
      (t.cache.buf a).blockno = (t.cache.buf b).blockno → a = b) ∧
    ∀ k, (t.cache.buf k).refcnt = (t.holders k).length + t.pins k := by
  have same (k : Fin NBUF) : (t.cache.buf k).dev = (s.cache.buf k).dev ∧
      (t.cache.buf k).blockno = (s.cache.buf k).blockno := by
    rw [hbuf]
    by_cases hk : k = i
    · subst hk
      simp
    · simp [hk]
  constructor
  · intro a b ha hab hbb
    rw [(same a).1] at ha hab
    rw [(same b).1] at hab
    rw [(same a).2, (same b).2] at hbb
    exact h.unique a b ha hab hbb
  intro k
  rw [hbuf]
  by_cases hk : k = i
  · subst hk
    simpa using hrefs
  · obtain ⟨hh, hp⟩ := hrest k hk
    rw [update_of_ne hk, hh, hp]
    exact h.refs k

theorem bpin_inv (i : Fin NBUF) :
    Inv { s with cache := bpin s.cache i, pins := update s.pins i (s.pins i + 1) } := by
  have hr := h.refs i
  obtain ⟨hu, hrefs⟩ := h.recount
    { s with cache := bpin s.cache i, pins := update s.pins i (s.pins i + 1) } i
    ((s.cache.buf i).refcnt + 1) rfl (by simp; omega) (fun k hk => by simp [hk])
  refine ⟨?_, hu, hrefs, h.past⟩
  refine h.keep_list rfl rfl ?_
  intro k hk
  exact ⟨(Inv.free_of_setBuf i k _ (by simp) hk).2, rfl⟩

theorem bunpin_inv (p : P) (i : Fin NBUF) (hp : p ∈ s.holders i) (hpin : 0 < s.pins i) :
    Inv { s with cache := bunpin s.cache i, pins := update s.pins i (s.pins i - 1) } := by
  have hr := h.refs i
  have hlen : 0 < (s.holders i).length := length_pos_of_mem hp
  obtain ⟨hu, hrefs⟩ := h.recount
    { s with cache := bunpin s.cache i, pins := update s.pins i (s.pins i - 1) } i
    ((s.cache.buf i).refcnt - 1) rfl (by simp; omega) (fun k hk => by simp [hk])
  refine ⟨?_, hu, hrefs, h.past⟩
  refine h.keep_list rfl rfl ?_
  intro k hk
  -- the caller still holds the buffer, so it does not become free here
  exact ⟨(Inv.free_of_setBuf i k _ (by simp; omega) hk).2, rfl⟩

omit h in
theorem brelse_buf (c : Bcache) (i : Fin NBUF) :
    (brelse c i).buf = update c.buf i { c.buf i with refcnt := (c.buf i).refcnt - 1 } := by
  simp only [brelse]
  split_ifs <;> rfl

theorem brelse_inv [DecidableEq P] (p : P) (i : Fin NBUF) (hp : p ∈ s.holders i) :
    Inv { s with
      cache := brelse s.cache i
      holders := update s.holders i ((s.holders i).erase p)
      released := update s.released i (s.clock + 1)
      clock := s.clock + 1 } := by
  have hr := h.refs i
  have hlen : 0 < (s.holders i).length := length_pos_of_mem hp
  obtain ⟨hu, hrefs⟩ := h.recount { s with
      cache := brelse s.cache i
      holders := update s.holders i ((s.holders i).erase p)
      released := update s.released i (s.clock + 1)
      clock := s.clock + 1 } i ((s.cache.buf i).refcnt - 1) (brelse_buf s.cache i)
    (by simp [length_erase_of_mem hp]; omega) (fun k hk => by simp [hk])
  refine ⟨?_, hu, hrefs, ?_⟩
  · by_cases hz : (s.cache.buf i).refcnt - 1 = 0
    · -- the last reference: the buffer moves to the front, later than every other release
      obtain ⟨xs, hl, hall, hord⟩ := h.list
      have he : brelse s.cache i = linkFront (unlink (s.cache.setBuf i
          { s.cache.buf i with refcnt := (s.cache.buf i).refcnt - 1 }) (some i)) (some i) := by
        simp [brelse, Bcache.setBuf, hz]
      refine ⟨i :: xs.erase i, ?_, ?_, ?_⟩
      · rw [he]
        exact moveFront_lists hl (hall i)
      · intro k
        by_cases hk : k = i
        · simp [hk]
        · exact mem_cons_of_mem _ ((mem_erase_of_ne hk).mpr (hall k))
      refine pairwise_cons.mpr ⟨?_, ?_⟩
      · intro j hj _ _
        have hji : j ≠ i := by
          rintro rfl
          exact hl.nodup.not_mem_erase hj
        have := h.past j
        simp only [update_self, update_of_ne hji]
        omega
      refine (hord.sublist erase_sublist).imp_of_mem ?_
      intro a b ha hb hab hza hzb
      have hai : a ≠ i := by
        rintro rfl
        exact hl.nodup.not_mem_erase ha
      have hbi : b ≠ i := by
        rintro rfl
        exact hl.nodup.not_mem_erase hb
      simp only [brelse_buf, update_of_ne hai, update_of_ne hbi] at hza hzb ⊢
      exact hab hza hzb
    · refine h.keep_list ?_ ?_ ?_
      · simp [brelse, Bcache.setBuf, hz]
      · simp [brelse, Bcache.setBuf, hz]
      · intro k hk
        simp only [brelse_buf] at hk
        obtain ⟨hne, hk⟩ := Inv.free_of_setBuf i k _ hz hk
        exact ⟨hk, update_of_ne hne _ _⟩
  · intro k
    have hk := h.past k
    by_cases hki : k = i
    · subst hki
      simp
    · simp only [update_of_ne hki]
      omega

theorem step_inv [DecidableEq P] {t : CacheState P} (l : Label P) (hs : Step s l t) : Inv t := by
  unfold Step at hs
  cases l with
  | bget p dev blockno =>
    simp only [step] at hs
    split_ifs at hs
    split at hs
    · next i c hc =>
      cases hs
      exact bget_inv h p dev blockno i c hc
    · simp at hs
  | brelse p i =>
    simp only [step] at hs
    split_ifs at hs with hp
    · cases hs
      exact brelse_inv h p i hp
    · simp at hs
  | bpin i =>
    cases hs
    exact bpin_inv h i
  | bunpin p i =>
    simp only [step] at hs
    split_ifs at hs with hp
    cases hs
    exact bunpin_inv h p i hp.1 hp.2

end Steps

end Xv6.Bio
