import Xv6.Kernel.Vm.Kalloc

namespace Xv6.Vm

open ByteCodec Hoare Function List

/-- The entry for `va` below a page-table page of the given level, 0 if a page on the way to it is
missing. -/
def lookupFrom (s : Mem) (va : Nat) : Nat → Nat → Nat
  | 0, pagetable => s.word pagetable (PX 0 va)
  | level + 1, pagetable =>
      if Flag (s.word pagetable (PX (level + 1) va)) PTE_V then
        lookupFrom s va level (PTE2PA (s.word pagetable (PX (level + 1) va)))
      else 0

def lookup (s : Mem) (pagetable va : Nat) : Nat := lookupFrom s va 2 pagetable

/-- The page-table page in which the entry for `va` is. -/
def descend (s : Mem) (va : Nat) : Nat → Nat → Option Nat
  | 0, pagetable => some pagetable
  | level + 1, pagetable =>
      if Flag (s.word pagetable (PX (level + 1) va)) PTE_V then
        descend s va level (PTE2PA (s.word pagetable (PX (level + 1) va)))
      else none

/-- The indices of `va` on the way down from a level. -/
def idx (va : Nat) : Nat → List Nat
  | 0 => []
  | level + 1 => PX (level + 1) va :: idx va level

variable {s s' : Mem} {va level : Nat} {E : Stop → Prop}

theorem idx_length (va level : Nat) : (idx va level).length = level := by
  induction level with
  | zero => rfl
  | succ level ih => simp [idx, ih]

/-- `walk` without `alloc` finds the page of the entry and changes nothing. -/
theorem walkLoop_false (p : Nat) : walkLoop va false level p s = .ok (descend s va level p, s) := by
  induction level generalizing p with
  | zero => rfl
  | succ level ih =>
    rw [walkLoop, run_get_bind, run_ite, run_ite, descend, if_pos rfl]
    split_ifs with hv
    · exact ih _
    · rfl

theorem wp_walk_false {pagetable : Nat} (hva : va < MAXVA) {Q : Option (Nat × Nat) → Mem → Prop} :
    Wp E (walk pagetable va false) s Q ↔
      Q ((descend s va 2 pagetable).map fun p => (p, PX 0 va)) s := by
  have hrun : walk pagetable va false s =
      .ok ((descend s va 2 pagetable).map fun p => (p, PX 0 va), s) := by
    rw [walk]
    simp only [if_neg (Nat.not_le.mpr hva)]
    change (walkLoop va false 2 pagetable s >>= _) = _
    rw [walkLoop_false]
    rfl
  unfold Wp
  rw [hrun]

variable {p : Nat}

theorem lookupFrom_descend {q : Nat} (h : descend s va level p = some q) :
    lookupFrom s va level p = s.word q (PX 0 va) := by
  induction level generalizing p with
  | zero =>
    cases h
    rfl
  | succ level ih =>
    rw [descend] at h
    split_ifs at h with hv
    rw [lookupFrom, if_pos hv]
    exact ih h

theorem lookupFrom_none (h : descend s va level p = none) : lookupFrom s va level p = 0 := by
  induction level generalizing p with
  | zero => cases h
  | succ level ih =>
    rw [descend] at h
    rw [lookupFrom]
    split_ifs at h with hv
    · rw [if_pos hv]
      exact ih h
    · exact if_neg hv

theorem descend_of_valid (h : Flag (lookupFrom s va level p) PTE_V) :
    ∃ q, descend s va level p = some q := by
  cases hd : descend s va level p with
  | some q => exact ⟨q, rfl⟩
  | none =>
    rw [lookupFrom_none hd] at h
    exact absurd h (not_flag_zero _)

theorem lookupFrom_zero (h : ∀ i, s.word p i = 0) : lookupFrom s va level p = 0 := by
  cases level with
  | zero => exact h _
  | succ level =>
    rw [lookupFrom, h, if_neg (not_flag_zero _)]

section

variable [Machine]

/-- The page-table pages form trees of two levels above the leaf level, and each page has one place
in them. -/
structure Tables (own : Nat → Owner) (s : Mem) : Prop where
  pool : ∀ {p r path}, own p = .table r path → Pool p
  root : ∀ {p r}, own p = .table r [] → p = r
  entry : ∀ {p r path i}, own p = .table r path → path.length < 2 → i < 512 →
    Flag (s.word p i) PTE_V → own (PTE2PA (s.word p i)) = .table r (path ++ [i]) ∧
      ¬ Flag (s.word p i) (PTE_R ||| PTE_W ||| PTE_X)
  back : ∀ {q r path i}, own q = .table r (path ++ [i]) → path.length < 2 ∧ i < 512 ∧
    ∃ p, own p = .table r path ∧ Flag (s.word p i) PTE_V ∧ PTE2PA (s.word p i) = q

variable {own own' : Nat → Owner} {r : Nat} {path : List Nat} {p q i : Nat} {v r' : Nat}

section

variable (h : Tables own s)
include h

theorem Tables.inj (hp : own p = .table r path) (hq : own q = .table r path) : p = q := by
  induction path using reverseRecOn generalizing p q with
  | nil => rw [h.root hp, h.root hq]
  | append_singleton path i ih =>
    obtain ⟨-, -, p', hp', -, hpp⟩ := h.back hp
    obtain ⟨-, -, q', hq', -, hqq⟩ := h.back hq
    rw [← hpp, ← hqq, ih hp' hq']

theorem Tables.length_le (hp : own p = .table r path) : path.length ≤ 2 := by
  induction path using reverseRecOn with
  | nil => exact Nat.zero_le _
  | append_singleton path i ih =>
    have := (h.back hp).1
    simp
    omega

theorem Tables.above {rest : List Nat} (hp : own p = .table r (path ++ rest)) :
    ∃ q, own q = .table r path := by
  induction rest using reverseRecOn generalizing p with
  | nil => exact ⟨p, by rwa [append_nil] at hp⟩
  | append_singleton rest i ih =>
    rw [← append_assoc] at hp
    obtain ⟨-, -, q, hq, -⟩ := h.back hp
    exact ih hq

theorem Tables.descend (hp : own p = .table r path) (hlen : path.length + level = 2)
    (hq : descend s va level p = some q) : own q = .table r (path ++ idx va level) := by
  induction level generalizing p path with
  | zero =>
    cases hq
    rw [idx, append_nil]
    exact hp
  | succ level ih =>
    rw [Vm.descend] at hq
    split_ifs at hq with hv
    have hentry := (h.entry hp (by omega) (PX_lt _ _) hv).1
    have := ih hentry (by simp; omega) hq
    rw [append_assoc] at this
    exact this

/-- An entry of the map is in the page-table page that its indices lead to. -/
theorem Tables.lookupFrom_word (hq : own q = .table r path)
    (hlen : path.length + level = 2) (hp : own p = .table r (path ++ idx va level)) :
    lookupFrom s va level q = s.word p (PX 0 va) := by
  induction level generalizing q path with
  | zero =>
    rw [idx, append_nil] at hp
    rw [lookupFrom, h.inj hq hp]
  | succ level ih =>
    rw [idx, append_cons] at hp
    obtain ⟨q', hq'⟩ := h.above hp
    obtain ⟨-, -, q'', hq'', hv, hqq⟩ := h.back hq'
    rw [h.inj hq'' hq] at hv hqq
    rw [lookupFrom, if_pos hv, hqq]
    exact ih hq' (by simp; omega) hp

theorem Tables.lookup_word (hr : own r = .table r [])
    (hp : own p = .table r (idx va 2)) : lookup s r va = s.word p (PX 0 va) :=
  (h.lookupFrom_word hr rfl hp : lookupFrom s va 2 r = _)

theorem Tables.lookupFrom_congr (hp : own p = .table r path) (hlen : path.length + level = 2)
    (hpage : ∀ q path, own q = .table r path → s'.page (q / PGSIZE) = s.page (q / PGSIZE)) :
    lookupFrom s' va level p = lookupFrom s va level p := by
  induction level generalizing p path with
  | zero => exact Mem.word_congr (hpage p path hp)
  | succ level ih =>
    have hword := Mem.word_congr (i := PX (level + 1) va) (hpage p path hp)
    rw [lookupFrom, lookupFrom, hword]
    split_ifs with hv
    · exact ih (h.entry hp (by omega) (PX_lt _ _) hv).1 (by simp; omega)
    · rfl

theorem Tables.congr
    (hpage : ∀ q r path, own q = .table r path → s'.page (q / PGSIZE) = s.page (q / PGSIZE)) :
    Tables own s' := by
  refine ⟨h.pool, h.root, ?_, ?_⟩
  · intro p r path i hp hlen hi hv
    rw [Mem.word_congr (hpage p r path hp)] at hv ⊢
    exact h.entry hp hlen hi hv
  · intro q r path i hq
    obtain ⟨hlen, hi, p, hp, hv, hpq⟩ := h.back hq
    refine ⟨hlen, hi, p, hp, ?_⟩
    rw [Mem.word_congr (hpage p r path hp)]
    exact ⟨hv, hpq⟩

theorem Tables.reown (hown : ∀ p r path, own' p = .table r path ↔ own p = .table r path) :
    Tables own' s := by
  refine ⟨fun hp => h.pool ((hown ..).mp hp), fun hp => h.root ((hown ..).mp hp), ?_, ?_⟩
  · intro p r path i hp hlen hi hv
    obtain ⟨hq, hx⟩ := h.entry ((hown ..).mp hp) hlen hi hv
    exact ⟨(hown ..).mpr hq, hx⟩
  · intro q r path i hq
    obtain ⟨hlen, hi, p, hp, hv, hpq⟩ := h.back ((hown ..).mp hq)
    exact ⟨hlen, hi, p, (hown ..).mpr hp, hv, hpq⟩

theorem Tables.updated {o : Owner} (hp : ∀ r path, own p ≠ .table r path)
    (ho : ∀ r path, o ≠ .table r path) : Tables (update own p o) s := by
  refine h.reown fun q r path => ?_
  by_cases hq : q = p
  · subst hq
    simp [hp, ho]
  · rw [update_of_ne hq]

variable (hp : own p = .table r path) (hlen : path.length = 2)
include hp hlen

theorem Tables.setLeaf : Tables own (s.setWord p i v) := by
  have hword : ∀ {q r' path' j}, own q = .table r' path' → path'.length < 2 →
      (s.setWord p i v).word q j = s.word q j := by
    intro q r' path' j hq hlt
    refine Mem.word_setWord_ne (h.pool hp).1 (h.pool hq).1 ?_
    rintro rfl
    rw [hp] at hq
    cases hq
    omega
  refine ⟨h.pool, h.root, ?_, ?_⟩
  · intro q r' path' j hq hlt hj hv
    rw [hword hq hlt] at hv ⊢
    exact h.entry hq hlt hj hv
  · intro q r' path' j hq
    obtain ⟨hlt, hj, q', hq', hv, hqq⟩ := h.back hq
    refine ⟨hlt, hj, q', hq', ?_⟩
    rw [hword hq' hlt]
    exact ⟨hv, hqq⟩

/-- The map after an entry of the leaf level is written. -/
theorem Tables.lookupFrom_setLeaf (hi : i < 512) (hv : v < 2 ^ 64) {path' : List Nat}
    (hq : own q = .table r' path') (hlen' : path'.length + level = 2) :
    lookupFrom (s.setWord p i v) va level q =
      if r' = r ∧ path' ++ idx va level = path ∧ PX 0 va = i then v
      else lookupFrom s va level q := by
  induction level generalizing q path' with
  | zero =>
    rw [idx, append_nil, lookupFrom, lookupFrom]
    by_cases hqp : q = p
    · subst hqp
      rw [hp] at hq
      cases hq
      by_cases hpx : PX 0 va = i
      · rw [if_pos ⟨rfl, rfl, hpx⟩, hpx]
        exact Mem.word_setWord_self hi hv
      · rw [if_neg fun hc => hpx hc.2.2]
        exact Mem.word_setWord_index hpx
    · rw [if_neg, Mem.word_setWord_ne (h.pool hp).1 (h.pool hq).1 hqp]
      rintro ⟨rfl, rfl, -⟩
      exact hqp (h.inj hq hp)
  | succ level ih =>
    have hne : q ≠ p := by
      rintro rfl
      rw [hp] at hq
      cases hq
      omega
    rw [lookupFrom, lookupFrom, Mem.word_setWord_ne (h.pool hp).1 (h.pool hq).1 hne]
    by_cases hf : Flag (s.word q (PX (level + 1) va)) PTE_V
    · rw [if_pos hf, if_pos hf]
      rw [ih (h.entry hq (by omega) (PX_lt _ _) hf).1 (by simp; omega), append_assoc]
      rfl
    rw [if_neg hf, if_neg hf, if_neg]
    rintro ⟨rfl, rfl, -⟩
    -- the page of the entry would be below `q`, where there is none
    rw [idx, append_cons] at hp
    obtain ⟨q', hq'⟩ := h.above hp
    obtain ⟨-, -, q'', hq'', hv, -⟩ := h.back hq'
    rw [h.inj hq'' hq] at hv
    exact hf hv

end

/-- Pages that were free have gone to the tree of `r`, as page-table pages or as the user's. Nothing
else has changed but the page-table pages of `r`. -/
structure Grows (r : Nat) (own own' : Nat → Owner) (s s' : Mem) : Prop where
  kmem : Kmem own' s'
  tables : Tables own' s'
  owner : ∀ p, own' p = own p ∨
    own p = .free ∧ ((∃ path, own' p = .table r path) ∨ ∃ k, own' p = .user r k)
  frame : ∀ q, q % PGSIZE = 0 → own q ≠ .free → (∀ path, own q ≠ .table r path) →
    s'.page (q / PGSIZE) = s.page (q / PGSIZE)

theorem Grows.refl (hk : Kmem own s) (ht : Tables own s) : Grows r own own s s :=
  ⟨hk, ht, fun _ => .inl rfl, fun _ _ _ _ => rfl⟩

theorem Grows.kept (h : Grows r own own' s s') {o : Owner} (hp : own p = o) (ho : o ≠ .free) :
    own' p = o := by
  rcases h.owner p with hsame | ⟨hfree, -⟩
  · rw [hsame, hp]
  · rw [hp] at hfree
    exact absurd hfree ho

theorem Grows.trans {own'' : Nat → Owner} {s'' : Mem} (h : Grows r own own' s s')
    (h' : Grows r own' own'' s' s'') : Grows r own own'' s s'' where
  kmem := h'.kmem
  tables := h'.tables
  owner p := by
    rcases h'.owner p with hsame | ⟨hfree, hnew⟩
    · rcases h.owner p with hsame' | ⟨hfree, hnew⟩
      · exact .inl (hsame.trans hsame')
      · exact .inr ⟨hfree, by rwa [hsame]⟩
    rcases h.owner p with hsame' | ⟨-, ⟨path, hpath⟩ | ⟨k, hk⟩⟩
    · exact .inr ⟨hsame'.symm.trans hfree, hnew⟩
    · rw [hpath] at hfree
      cases hfree
    · rw [hk] at hfree
      cases hfree
  frame q hq hfree htable := by
    have hown := h.kept (p := q) rfl hfree
    rw [h'.frame q hq (by rwa [hown]) (by rwa [hown]), h.frame q hq hfree htable]

theorem Grows.lookup_other (h : Grows r own own' s s') (ht : Tables own s)
    (hr : own r' = .table r' []) (hne : r' ≠ r) (va : Nat) : lookup s' r' va = lookup s r' va := by
  refine ht.lookupFrom_congr hr rfl fun q path hq => h.frame q (ht.pool hq).1 ?_ ?_
  · rw [hq]
    simp
  · intro path' hpath
    rw [hq] at hpath
    cases hpath
    exact hne rfl

section

variable {child : Nat} (h : Tables own s) (hp : own p = .table r path) (hlen : path.length < 2)
  (hi : i < 512) (hinvalid : ¬ Flag (s.word p i) PTE_V) (hchild : own child = .held)
  (hpool : Pool child) (hzero : ∀ j, s.word child j = 0)
include h hp hlen hi hinvalid hchild hpool hzero

theorem Tables.setChild :
    Tables (update own child (.table r (path ++ [i])))
      (s.setWord p i (PA2PTE child ||| PTE_V)) := by
  have hne : p ≠ child := by
    rintro rfl
    rw [hp] at hchild
    cases hchild
  have hentry : (s.setWord p i (PA2PTE child ||| PTE_V)).word p i = PA2PTE child ||| PTE_V :=
    Mem.word_setWord_self hi (child_lt hpool.lt)
  have hpte := PTE2PA_child hpool.lt hpool.1
  have hword : ∀ {q j}, q % PGSIZE = 0 → ¬ (q = p ∧ j = i) →
      (s.setWord p i (PA2PTE child ||| PTE_V)).word q j = s.word q j := by
    intro q j hq hnot
    by_cases hqp : q = p
    · subst hqp
      exact Mem.word_setWord_index fun hj => hnot ⟨rfl, hj⟩
    · exact Mem.word_setWord_ne (h.pool hp).1 hq hqp
  have hold : ∀ {q r' path'}, q ≠ child → update own child (.table r (path ++ [i])) q =
      .table r' path' → own q = .table r' path' := by
    intro q r' path' hq heq
    rwa [update_of_ne hq] at heq
  have hkeep : ∀ {q r' path'}, own q = .table r' path' →
      update own child (.table r (path ++ [i])) q = .table r' path' := by
    intro q r' path' hq
    rw [update_of_ne, hq]
    rintro rfl
    rw [hq] at hchild
    cases hchild
  refine ⟨?_, ?_, ?_, ?_⟩
  · intro q r' path' hq
    by_cases hqc : q = child
    · rwa [hqc]
    · exact h.pool (hold hqc hq)
  · intro q r' hq
    by_cases hqc : q = child
    · rw [hqc, update_self] at hq
      simp at hq
    · exact h.root (hold hqc hq)
  · intro q r' path' j hq hlt hj hv
    by_cases hqc : q = child
    · rw [hqc, hword hpool.1 fun hc => hne hc.1.symm, hzero] at hv
      exact absurd hv (not_flag_zero _)
    replace hq := hold hqc hq
    by_cases hslot : q = p ∧ j = i
    · rw [hslot.1, hp] at hq
      obtain ⟨rfl, rfl⟩ := Owner.table.inj hq
      rw [hslot.1, hslot.2, hentry, hpte]
      exact ⟨update_self .., not_leaf_of_flags (PTE_FLAGS_child child)⟩
    · rw [hword (h.pool hq).1 hslot] at hv ⊢
      obtain ⟨hentry, hx⟩ := h.entry hq hlt hj hv
      exact ⟨hkeep hentry, hx⟩
  · intro q r' path' j hq
    by_cases hqc : q = child
    · subst hqc
      rw [update_self] at hq
      obtain ⟨rfl, hpath⟩ := Owner.table.inj hq
      obtain ⟨rfl, hj⟩ := append_inj' hpath rfl
      cases hj
      refine ⟨hlen, hi, p, hkeep hp, ?_⟩
      rw [hentry]
      exact ⟨flag_valid, hpte⟩
    obtain ⟨hlt, hj, q', hq', hv, hqq⟩ := h.back (hold hqc hq)
    refine ⟨hlt, hj, q', hkeep hq', ?_⟩
    rw [hword (h.pool hq').1 ?_]
    · exact ⟨hv, hqq⟩
    · rintro ⟨rfl, rfl⟩
      exact hinvalid hv

theorem Tables.lookupFrom_setChild {path' : List Nat} (hq : own q = .table r' path')
    (hlen' : path'.length + level = 2) :
    lookupFrom (s.setWord p i (PA2PTE child ||| PTE_V)) va level q = lookupFrom s va level q := by
  have hne : ∀ {q r' path'}, own q = .table r' path' → q ≠ child := by
    rintro q r' path' hq rfl
    rw [hq] at hchild
    cases hchild
  induction level generalizing q path' with
  | zero =>
    refine Mem.word_setWord_ne (h.pool hp).1 (h.pool hq).1 ?_
    rintro rfl
    rw [hp] at hq
    cases hq
    omega
  | succ level ih =>
    rw [lookupFrom, lookupFrom]
    by_cases hslot : q = p ∧ PX (level + 1) va = i
    · rw [hslot.1, hslot.2, if_neg hinvalid, Mem.word_setWord_self hi (child_lt hpool.lt),
        if_pos flag_valid, PTE2PA_child hpool.lt hpool.1]
      refine lookupFrom_zero fun j => ?_
      rw [Mem.word_setWord_ne (h.pool hp).1 hpool.1 (hne hp).symm, hzero]
    have hword : (s.setWord p i (PA2PTE child ||| PTE_V)).word q (PX (level + 1) va) =
        s.word q (PX (level + 1) va) := by
      by_cases hqp : q = p
      · subst hqp
        exact Mem.word_setWord_index fun hj => hslot ⟨rfl, hj⟩
      · exact Mem.word_setWord_ne (h.pool hp).1 (h.pool hq).1 hqp
    rw [hword]
    split_ifs with hv
    · exact ih (h.entry hq (by omega) (PX_lt _ _) hv).1 (by simp; omega)
    · rfl

end

theorem Grows.of_page (hk : Kmem own s') (ht : Tables own s) (hpage : s'.page = s.page) :
    Grows r own own s s' where
  kmem := hk
  tables := ht.congr fun _ _ _ _ => congrFun hpage _
  owner _ := .inl rfl
  frame _ _ _ _ := congrFun hpage _

theorem Grows.child (ht : Tables own s) {child : Nat} {s1 : Mem} (hp : own p = .table r path)
    (hlen : path.length < 2) (hi : i < 512) (hinvalid : ¬ Flag (s.word p i) PTE_V)
    (hfree : own child = .free) (hpool : Pool child) (hk : Kmem (update own child .held) s1)
    (hframe : Mem.Only child s s1) : Grows r own (update own child (.table r (path ++ [i]))) s
      ((s1.memset child 0).setWord p i (PA2PTE child ||| PTE_V)) ∧
    ∀ r' va, own r' = .table r' [] →
      lookup ((s1.memset child 0).setWord p i (PA2PTE child ||| PTE_V)) r' va = lookup s r' va := by
  have hne : ∀ {q r' path'}, own q = .table r' path' → q ≠ child := by
    rintro q r' path' hq rfl
    rw [hq] at hfree
    cases hfree
  have hown : ∀ {q r' path'}, own q = .table r' path' →
      update own child .held q = .table r' path' := by
    intro q r' path' hq
    rw [update_of_ne (hne hq), hq]
  have hpage : Mem.Only child s (s1.memset child 0) := .setPage hpool.1 hframe
  have ht2 : Tables (update own child .held) (s1.memset child 0) := by
    have ht2 : Tables own (s1.memset child 0) :=
      ht.congr fun q r' path' hq => hpage q (ht.pool hq).1 (hne hq)
    refine ht2.updated ?_ ?_
    · rw [hfree]
      simp
    · simp
  have hinvalid2 : ¬ Flag ((s1.memset child 0).word p i) PTE_V := by
    rwa [Mem.word_congr (hpage _ (ht.pool hp).1 (hne hp))]
  have hheld : update own child Owner.held child = .held := update_self ..
  have hk2 : Kmem (update own child .held)
      ((s1.memset child 0).setWord p i (PA2PTE child ||| PTE_V)) := by
    refine (hk.setPage hpool.1 (by simp)).setPage (ht.pool hp).1 ?_
    rw [hown hp]
    simp
  refine ⟨⟨?_, ?_, ?_, ?_⟩, ?_⟩
  · have := hk2.reown (p := child) (o := .table r (path ++ [i])) (by simp) (by simp)
    rwa [update_idem] at this
  · have := ht2.setChild (hown hp) hlen hi hinvalid2 hheld hpool fun j => Mem.word_memset_zero
    rwa [update_idem] at this
  · intro q
    by_cases hq : q = child
    · subst hq
      exact .inr ⟨hfree, .inl ⟨_, update_self ..⟩⟩
    · exact .inl (update_of_ne hq ..)
  · intro q hq hqfree hqtable
    rw [Mem.setWord_page_ne (ht.pool hp).1 hq, hpage q hq]
    · rintro rfl
      exact hqfree hfree
    · rintro rfl
      exact hqtable _ hp
  · intro r' va hr
    refine Eq.trans (ht2.lookupFrom_setChild (hown hp) hlen hi hinvalid2 hheld hpool
      (fun j => Mem.word_memset_zero) (hown hr) rfl) ?_
    exact ht.lookupFrom_congr hr rfl fun q path' hq => hpage q (ht.pool hq).1 (hne hq)

variable (hk : Kmem own s) (ht : Tables own s)
include hk ht

/-- `walk` with `alloc` makes the pages that are missing on the way to an entry. -/
theorem walkLoop_spec (hp : own p = .table r path) (hlen : path.length + level = 2) :
    Wp E (walkLoop va true level p) s fun res s' => ∃ own', Grows r own own' s s' ∧
      (∀ r' va, own r' = .table r' [] → lookup s' r' va = lookup s r' va) ∧
      (∀ q k, own' q = .user r k → own q = .user r k) ∧
      ∀ q, res = some q → own' q = .table r (path ++ idx va level) := by
  induction level generalizing s own p path with
  | zero =>
    refine ⟨own, .refl hk ht, fun _ _ _ => rfl, fun _ _ h => h, ?_⟩
    rintro q ⟨⟩
    rw [idx, append_nil]
    exact hp
  | succ level ih =>
    rw [walkLoop]
    simp only [wp_bind, wp_get, Bool.true_eq_false, if_false]
    by_cases hv : Flag (s.word p (PX (level + 1) va)) PTE_V
    · rw [if_pos hv]
      have hchild := (ht.entry hp (by omega) (PX_lt _ _) hv).1
      refine (ih hk ht hchild (by simp; omega)).mono ?_
      rintro res s' ⟨own', hgrows, hlookup, huser, hres⟩
      refine ⟨own', hgrows, hlookup, huser, fun q hq => ?_⟩
      rw [hres q hq, append_assoc]
      rfl
    rw [if_neg hv]
    refine (kalloc_spec hk).bind ?_
    rintro child s1 (⟨rfl, hpage, hk1⟩ | ⟨hne, hfree, hpool, hk1, hframe⟩)
    · rw [if_pos rfl]
      exact ⟨own, .of_page hk1 ht hpage,
        fun r' va hr => ht.lookupFrom_congr hr rfl fun _ _ _ => congrFun hpage _,
        fun _ _ h => h, fun q hq => by cases hq⟩
    rw [if_neg hne]
    simp only [wp_bind, wp_modify]
    obtain ⟨hgrows, hlookup⟩ :=
      Grows.child ht hp (by omega) (PX_lt (level + 1) va) hv hfree hpool hk1 hframe
    refine (ih hgrows.kmem hgrows.tables (update_self ..) (by simp; omega)).mono ?_
    rintro res s' ⟨own', hgrows', hlookup', huser', hres⟩
    refine ⟨own', hgrows.trans hgrows', ?_, ?_, fun q hq => ?_⟩
    · intro r' va hr
      rw [hlookup' r' va (hgrows.kept hr (by simp)), hlookup r' va hr]
    · intro q k hq
      have := huser' q k hq
      by_cases hqc : q = child
      · rw [hqc, update_self] at this
        cases this
      · rwa [update_of_ne hqc] at this
    · rw [hres q hq, append_assoc]
      rfl

theorem walk_spec (hr : own r = .table r []) (hva : va < MAXVA) :
    Wp E (walk r va true) s fun res s' => ∃ own', Grows r own own' s s' ∧
      (∀ r' va, own r' = .table r' [] → lookup s' r' va = lookup s r' va) ∧
      (∀ q k, own' q = .user r k → own q = .user r k) ∧
      ∀ q i, res = some (q, i) → own' q = .table r (idx va 2) ∧ i = PX 0 va := by
  rw [walk]
  simp only [if_neg (Nat.not_le.mpr hva), wp_bind]
  refine (walkLoop_spec hk ht hr rfl).mono ?_
  rintro res s' ⟨own', hgrows, hlookup, huser, hres⟩
  refine ⟨own', hgrows, hlookup, huser, fun q i hq => ?_⟩
  cases res with
  | none => cases hq
  | some q' =>
    cases hq
    exact ⟨hres _ rfl, rfl⟩

omit hk ht in
theorem Tables.lookup_setLeaf (h : Tables own s) {va' : Nat} (hp : own p = .table r (idx va 2))
    (hv : v < 2 ^ 64) (hva : va < 2 ^ 39) (hva' : va' < 2 ^ 39) (hr : own r = .table r []) :
    lookup (s.setWord p (PX 0 va) v) r va' =
      if va' / PGSIZE = va / PGSIZE then v else lookup s r va' := by
  have hcond : (r = r ∧ [] ++ idx va' 2 = idx va 2 ∧ PX 0 va' = PX 0 va) ↔
      va' / PGSIZE = va / PGSIZE := by
    rw [← PX_inj hva' hva]
    simp [idx, and_assoc]
  rw [lookup, h.lookupFrom_setLeaf hp (idx_length va 2) (PX_lt 0 va) hv hr rfl, ← lookup]
  exact if_congr hcond rfl rfl

theorem Grows.setLeaf (hp : own p = .table r path) (hlen : path.length = 2) :
    Grows r own own s (s.setWord p i v) where
  kmem := hk.setPage (ht.pool hp).1 (by rw [hp]; simp)
  tables := ht.setLeaf hp hlen
  owner _ := .inl rfl
  frame q hq _ htable := by
    refine Mem.setWord_page_ne (ht.pool hp).1 hq ?_
    rintro rfl
    exact htable _ hp

theorem uvmcreate_spec :
    Wp E uvmcreate s fun r s' =>
      r = 0 ∧ s'.page = s.page ∧ Kmem own s' ∨
      own r = .free ∧ Pool r ∧ Kmem (update own r (.table r [])) s' ∧
        Tables (update own r (.table r [])) s' ∧ (∀ va, lookup s' r va = 0) ∧ Mem.Only r s s' := by
  rw [uvmcreate]
  refine (kalloc_spec hk).bind ?_
  rintro r s1 (⟨rfl, hpage, hk1⟩ | ⟨hne, hfree, hpool, hk1, hframe⟩)
  · simp only [ne_eq, not_true_eq_false, if_false]
    exact .inl ⟨rfl, hpage, hk1⟩
  simp only [ne_eq, hne, not_false_eq_true, if_true, wp_bind, wp_modify, wp_pure]
  have hzero : ∀ j, (s1.memset r 0).word r j = 0 := fun j => Mem.word_memset_zero
  have hpage : Mem.Only r s (s1.memset r 0) := .setPage hpool.1 hframe
  have hold : ∀ {q r' path}, q ≠ r →
      update own r (.table r []) q = .table r' path → own q = .table r' path := by
    intro q r' path hq heq
    rwa [update_of_ne hq] at heq
  have hnot : ∀ {q r' path}, own q = .table r' path → q ≠ r := by
    rintro q r' path hq rfl
    rw [hq] at hfree
    cases hfree
  have hkeep : ∀ {q r' path}, own q = .table r' path →
      update own r (.table r []) q = .table r' path := by
    intro q r' path hq
    rw [update_of_ne (hnot hq), hq]
  refine .inr ⟨hfree, hpool, ?_, ⟨?_, ?_, ?_, ?_⟩, fun va => lookupFrom_zero hzero, hpage⟩
  · have hset : Kmem _ (s1.memset r 0) := hk1.setPage hpool.1 (by simp)
    have := hset.reown (p := r) (o := .table r []) (by simp) (by simp)
    rwa [update_idem] at this
  · intro q r' path hq
    by_cases hqr : q = r
    · rwa [hqr]
    · exact ht.pool (hold hqr hq)
  · intro q r' hq
    by_cases hqr : q = r
    · rw [hqr, update_self] at hq
      cases hq
      exact hqr
    · exact ht.root (hold hqr hq)
  · intro q r' path j hq hlen hj hv
    by_cases hqr : q = r
    · rw [hqr, hzero] at hv
      exact absurd hv (not_flag_zero _)
    · have hq' := hold hqr hq
      rw [Mem.word_congr (hpage q (ht.pool hq').1 hqr)] at hv ⊢
      obtain ⟨hentry, hx⟩ := ht.entry hq' hlen hj hv
      exact ⟨hkeep hentry, hx⟩
  intro q r' path j hq
  by_cases hqr : q = r
  · rw [hqr, update_self] at hq
    have := (Owner.table.inj hq).2
    simp at this
  · obtain ⟨hlen, hj, q', hq', hv, hqq⟩ := ht.back (hold hqr hq)
    refine ⟨hlen, hj, q', hkeep hq', ?_⟩
    rw [Mem.word_congr (hpage q' (ht.pool hq').1 (hnot hq'))]
    exact ⟨hv, hqq⟩

end

end Xv6.Vm
