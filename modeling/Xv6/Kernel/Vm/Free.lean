import Xv6.Kernel.Vm.Alloc

namespace Xv6.Vm

open ByteCodec Hoare Function List

variable [Machine] {own own' own₀ : Nat → Owner} {s s' s₀ : Mem} {r n p q level : Nat}
  {path : List Nat} {E : Stop → Prop}

/-- The page-table pages from a place of the tree downwards. -/
def Below (own₀ : Nat → Owner) (r : Nat) (path : List Nat) (q : Nat) : Prop :=
  ∃ rest, own₀ q = .table r (path ++ rest)

variable {i : Nat}

section

omit [Machine]

theorem Below.of_child (h : Below own₀ r (path ++ [i]) q) : Below own₀ r path q := by
  obtain ⟨rest, hq⟩ := h
  exact ⟨[i] ++ rest, by rw [hq, append_assoc]⟩

theorem Below.child_inj {j : Nat} (h : Below own₀ r (path ++ [i]) q)
    (h' : Below own₀ r (path ++ [j]) q) : i = j := by
  obtain ⟨rest, hq⟩ := h
  obtain ⟨rest', hq'⟩ := h'
  rw [hq] at hq'
  simp only [append_assoc, Owner.table.injEq, true_and, append_cancel_left_eq,
    singleton_append, List.cons.injEq] at hq'
  exact hq'.1

theorem Below.not_child (hp : own₀ p = .table r path) (i : Nat) :
    ¬ Below own₀ r (path ++ [i]) p := by
  rintro ⟨rest, hrest⟩
  rw [hp] at hrest
  simp at hrest

end

section

variable (h0 : Tables own₀ s₀) (hp : own₀ p = .table r path)
include h0 hp

theorem Below.cases (h : Below own₀ r path q) :
    q = p ∨ ∃ i < 512, Below own₀ r (path ++ [i]) q := by
  obtain ⟨rest, hq⟩ := h
  cases rest with
  | nil =>
    rw [append_nil] at hq
    exact .inl (h0.inj hq hp)
  | cons i rest =>
    rw [append_cons] at hq
    obtain ⟨q', hq'⟩ := h0.above hq
    exact .inr ⟨i, (h0.back hq').2.1, rest, hq⟩

/-- The pages from a place of the tree downwards have become free. -/
structure Freed (own₀ : Nat → Owner) (r : Nat) (path : List Nat) (own own' : Nat → Owner)
    (s s' : Mem) : Prop where
  kmem : Kmem own' s'
  free : ∀ q, Below own₀ r path q → own' q = .free
  kept : ∀ q, ¬ Below own₀ r path q → own' q = own q
  frame : ∀ q, q % PGSIZE = 0 → own q ≠ .free → ¬ Below own₀ r path q →
    s'.page (q / PGSIZE) = s.page (q / PGSIZE)

/-- The tree from a place downwards is as it was at first. -/
def Intact (own₀ : Nat → Owner) (s₀ : Mem) (r : Nat) (path : List Nat) (own : Nat → Owner)
    (s : Mem) : Prop :=
  ∀ q, Below own₀ r path q → own q = own₀ q ∧ s.page (q / PGSIZE) = s₀.page (q / PGSIZE)

/-- The loop of `freewalk` in one page, given what it does with the pages that the entries of the page
point to. -/
theorem freewalk_page (hleaf : path.length = 2 → ∀ i < 512, ¬ Flag (s₀.word p i) PTE_V)
    (hk : Kmem own s) (hin : Intact own₀ s₀ r path own s)
    (hrec : path.length < 2 → ∀ i < 512, ∀ child own s, own₀ child = .table r (path ++ [i]) →
      Kmem own s → Intact own₀ s₀ r (path ++ [i]) own s →
      Wp E (freewalk level child) s fun _ s' =>
        ∃ own', Freed own₀ r (path ++ [i]) own own' s s') :
    Wp E (freewalk (level + 1) p) s fun _ s' => ∃ own', Freed own₀ r path own own' s s' := by
  have hpool := h0.pool hp
  have hself : Below own₀ r path p := ⟨[], by rw [hp, append_nil]⟩
  obtain ⟨hown, hpage⟩ := hin p hself
  have htable : ∀ {q}, Below own₀ r path q → own q ≠ .free := by
    intro q hq
    rw [(hin q hq).1]
    obtain ⟨rest, hq⟩ := hq
    rw [hq]
    simp
  rw [freewalk, wp_bind]
  generalize hN : 512 = N
  -- the entries before `i` have been dealt with
  refine (Wp.forUpto (fun i t => ∃ ownᵢ, Kmem ownᵢ t ∧
    (∀ q j, j < i → Below own₀ r (path ++ [j]) q → ownᵢ q = .free) ∧
    (∀ q, (∀ j < i, ¬ Below own₀ r (path ++ [j]) q) → ownᵢ q = own q) ∧
    (∀ j, i ≤ j → t.word p j = s₀.word p j) ∧
    ∀ q, q % PGSIZE = 0 → own q ≠ .free → q ≠ p → (∀ j < i, ¬ Below own₀ r (path ++ [j]) q) →
      t.page (q / PGSIZE) = s.page (q / PGSIZE)) ?_ ?_).mono ?_
  · exact ⟨own, hk, fun _ _ h => absurd h (Nat.not_lt_zero _), fun _ _ => rfl,
      fun j _ => Mem.word_congr hpage, fun _ _ _ _ _ => rfl⟩
  · rintro i t hi ⟨ownᵢ, hkᵢ, hfree, hkept, hword, hframe⟩
    rw [← hN] at hi
    have hpᵢ : ownᵢ p = own p := hkept p fun j _ => Below.not_child hp j
    simp only [wp_bind, wp_get, hword i (Nat.le_refl _)]
    by_cases hv : Flag (s₀.word p i) PTE_V
    · have hlen : path.length < 2 := by
        have := h0.length_le hp
        have : path.length ≠ 2 := fun h2 => hleaf h2 i hi hv
        omega
      obtain ⟨hchild, hx⟩ := h0.entry hp hlen hi hv
      rw [if_pos ⟨hv, hx⟩]
      refine (hrec hlen i hi _ ownᵢ t hchild hkᵢ fun q hq => ?_).bind ?_
      · have hother : ∀ j < i, ¬ Below own₀ r (path ++ [j]) q := fun j hj hq' =>
          absurd (Below.child_inj hq' hq) (by omega)
        have hqp : q ≠ p := by
          rintro rfl
          exact Below.not_child hp i hq
        obtain ⟨hq1, hq2⟩ := hin q hq.of_child
        have hal : q % PGSIZE = 0 := by
          obtain ⟨rest, hq'⟩ := hq
          exact (h0.pool hq').1
        exact ⟨(hkept q hother).trans hq1, (hframe q hal (htable hq.of_child) hqp hother).trans hq2⟩
      · rintro _ u ⟨own', hfreed⟩
        have hp' : own' p = own p := (hfreed.kept p (Below.not_child hp i)).trans hpᵢ
        rw [wp_modify]
        refine ⟨own', hfreed.kmem.setPage hpool.1 (by rw [hp']; exact htable hself), ?_, ?_, ?_, ?_⟩
        · intro q j hj hq
          by_cases hqi : Below own₀ r (path ++ [i]) q
          · exact hfreed.free q hqi
          · have hji : j ≠ i := by
              rintro rfl
              exact hqi hq
            rw [hfreed.kept q hqi, hfree q j (by omega) hq]
        · intro q hq
          rw [hfreed.kept q (hq i (by omega)), hkept q fun j hj => hq j (by omega)]
        · intro j hj
          have hsame : u.page (p / PGSIZE) = t.page (p / PGSIZE) :=
            hfreed.frame p hpool.1 (by rw [hpᵢ]; exact htable hself) (Below.not_child hp i)
          rw [Mem.word_setWord_index (by omega), Mem.word_congr hsame, hword j (by omega)]
        · intro q hq hne hqp hnot
          have hqᵢ : ownᵢ q = own q := hkept q fun j hj => hnot j (by omega)
          rw [Mem.setWord_page_ne hpool.1 hq hqp,
            hfreed.frame q hq (by rwa [hqᵢ]) (hnot i (by omega)),
            hframe q hq hne hqp fun j hj => hnot j (by omega)]
    · -- there is nothing below an entry that is not valid
      have hempty : ∀ q, ¬ Below own₀ r (path ++ [i]) q := by
        rintro q ⟨rest, hq⟩
        obtain ⟨q', hq'⟩ := h0.above hq
        obtain ⟨-, -, p', hp', hv', -⟩ := h0.back hq'
        rw [h0.inj hp' hp] at hv'
        exact hv hv'
      rw [if_neg fun h => hv h.1, if_neg hv, wp_pure]
      refine ⟨ownᵢ, hkᵢ, ?_, ?_, fun j hj => hword j (by omega), ?_⟩
      · intro q j hj hq
        by_cases hji : j = i
        · subst hji
          exact absurd hq (hempty q)
        · exact hfree q j (by omega) hq
      · exact fun q hq => hkept q fun j hj => hq j (by omega)
      · exact fun q hq hne hqp hnot => hframe q hq hne hqp fun j hj => hnot j (by omega)
  · rintro _ t ⟨own1, hk1, hfree, hkept, -, hframe⟩
    have hp1 : own1 p = own p := hkept p fun j _ => Below.not_child hp j
    refine (kfree_spec hk1 hpool (by rw [hp1]; exact htable hself)).mono ?_
    rintro _ s' ⟨hk', hframe'⟩
    refine ⟨_, hk', ?_, ?_, ?_⟩
    · intro q hq
      rcases hq.cases h0 hp with rfl | ⟨i, hi, hqi⟩
      · exact update_self ..
      · by_cases hqp : q = p
        · rw [hqp, update_self]
        · rw [update_of_ne hqp, hfree q i (by omega) hqi]
    · intro q hq
      have hqp : q ≠ p := by
        rintro rfl
        exact hq hself
      rw [update_of_ne hqp, hkept q fun j _ hqj => hq hqj.of_child]
    · intro q hal hne hq
      have hqp : q ≠ p := by
        rintro rfl
        exact hq hself
      rw [hframe' q hal hqp, hframe q hal hne hqp fun j _ hqj => hq hqj.of_child]

/-- `freewalk` frees the page-table pages of a tree without leaves. -/
theorem freewalk_spec (hlen : path.length + level = 2)
    (hleaf : ∀ q path i, own₀ q = .table r path → path.length = 2 → i < 512 →
      ¬ Flag (s₀.word q i) PTE_V)
    (hk : Kmem own s) (hin : Intact own₀ s₀ r path own s) :
    Wp E (freewalk (level + 1) p) s fun _ s' => ∃ own', Freed own₀ r path own own' s s' := by
  induction level generalizing p path own s with
  | zero =>
    refine freewalk_page h0 hp (fun hlen i hi => hleaf p path i hp hlen hi) hk hin fun hlt => ?_
    omega
  | succ level ih =>
    refine freewalk_page h0 hp (fun hlen i hi => hleaf p path i hp hlen hi) hk hin ?_
    intro _ i _ child own s hchild hk hin
    exact ih hchild (by rw [length_append, length_singleton]; omega) hk hin

end

/-- The trees of others stay when a tree is freed. -/
theorem Tables.remove (h : Tables own s)
    (hown : ∀ q r' path, own' q = .table r' path ↔ own q = .table r' path ∧ r' ≠ r)
    (hpage : ∀ q r' path, own q = .table r' path → r' ≠ r →
      s'.page (q / PGSIZE) = s.page (q / PGSIZE)) : Tables own' s' := by
  refine ⟨fun hp => h.pool ((hown ..).mp hp).1, fun hp => h.root ((hown ..).mp hp).1, ?_, ?_⟩
  · intro p r' path i hp hlen hi hv
    obtain ⟨hp, hne⟩ := (hown ..).mp hp
    rw [Mem.word_congr (hpage p r' path hp hne)] at hv ⊢
    obtain ⟨hq, hx⟩ := h.entry hp hlen hi hv
    exact ⟨(hown ..).mpr ⟨hq, hne⟩, hx⟩
  intro q r' path i hq
  obtain ⟨hq, hne⟩ := (hown ..).mp hq
  obtain ⟨hlen, hi, p, hp, hv, hpq⟩ := h.back hq
  refine ⟨hlen, hi, p, (hown ..).mpr ⟨hp, hne⟩, ?_⟩
  rw [Mem.word_congr (hpage p r' path hp hne)]
  exact ⟨hv, hpq⟩

/-- Nothing is left of the tree of `r`: its pages are free. -/
structure Gone (r : Nat) (own own' : Nat → Owner) (s s' : Mem) : Prop where
  kmem : Kmem own' s'
  tables : Tables own' s'
  loc : Local (Owner.Tree r) own own' s s'
  none : ∀ p, own' p ≠ .free → ¬ Owner.Tree r (own' p)

theorem Tables.leaf_lookup (h : Tables own s) (hr : own r = .table r [])
    (hq : own q = .table r path) (hlen : path.length = 2) (hi : i < 512) :
    ∃ va < 2 ^ 39, lookup s r va = s.word q i := by
  obtain ⟨i2, i1, rfl⟩ := length_eq_two.mp hlen
  obtain ⟨-, hi1, p, hp, -⟩ := h.back (show own q = .table r ([i2] ++ [i1]) from hq)
  obtain ⟨-, hi2, -⟩ := h.back (show own p = .table r ([] ++ [i2]) from hp)
  obtain ⟨va, hva, h2, h1, h0⟩ : ∃ va < 2 ^ 39, PX 2 va = i2 ∧ PX 1 va = i1 ∧ PX 0 va = i := by
    refine ⟨i2 * 2 ^ 30 + i1 * 2 ^ 21 + i * 2 ^ 12, by omega, ?_⟩
    simp only [PX_eq]
    omega
  refine ⟨va, hva, ?_⟩
  rw [h.lookup_word hr (p := q), h0]
  rw [hq]
  simp [idx, h1, h2]

/-- `freewalk` on a tree in which nothing is mapped any more. -/
theorem freewalk_root (hk : Kmem own s) (ht : Tables own s) (hr : own r = .table r [])
    (hleaf : ∀ va < 2 ^ 39, mapping s r va = .none) (huser : ∀ p k, own p ≠ .user r k) :
    Wp E (freewalk 3 r) s fun _ s' => ∃ own', Gone r own own' s s' := by
  have hlevel : ([] : List Nat).length + 2 = 2 := rfl
  refine (freewalk_spec ht hr hlevel ?_ hk fun q hq => ⟨rfl, rfl⟩).mono ?_
  · intro q path i hq hlen hi
    obtain ⟨va, hva, hlook⟩ := ht.leaf_lookup hr hq hlen hi
    rw [← hlook]
    exact mapping_eq_none.mp (hleaf va hva)
  rintro _ s' ⟨own', hf⟩
  have hbelow : ∀ q, Below own r [] q ↔ ∃ path, own q = .table r path := fun q => by
    simp [Below]
  have hstay : ∀ q r' path, own' q = .table r' path ↔ own q = .table r' path ∧ r' ≠ r := by
    intro q r' path
    by_cases hq : Below own r [] q
    · rw [hf.free q hq]
      obtain ⟨path', hq⟩ := (hbelow q).mp hq
      rw [hq]
      constructor
      · intro h
        cases h
      · rintro ⟨h, hne⟩
        cases h
        exact absurd rfl hne
    · rw [hf.kept q hq]
      refine (and_iff_left_of_imp fun h => ?_).symm
      rintro rfl
      exact hq ((hbelow q).mpr ⟨path, h⟩)
  refine ⟨own', hf.kmem, ht.remove hstay ?_, ⟨?_, ?_⟩, ?_⟩
  · intro q r' path hq hne
    refine hf.frame q (ht.pool hq).1 (by rw [hq]; simp) fun hb => ?_
    obtain ⟨path', hq'⟩ := (hbelow q).mp hb
    rw [hq] at hq'
    cases hq'
    exact hne rfl
  · intro q
    by_cases hq : Below own r [] q
    · obtain ⟨path', hq'⟩ := (hbelow q).mp hq
      rw [hf.free q hq, hq']
      exact .inr ⟨.table _, .free⟩
    · exact .inl (hf.kept q hq)
  · intro q hal hm
    refine hf.frame q hal ?_ fun hb => ?_
    · intro hfree
      rw [hfree] at hm
      exact hm .free
    · obtain ⟨path', hq'⟩ := (hbelow q).mp hb
      rw [hq'] at hm
      exact hm (.table _)
  intro q hne htree
  have hq : ¬ Below own r [] q := fun hq => hne (hf.free q hq)
  generalize ho : own' q = o at htree
  cases htree with
  | free => exact hne ho
  | table path => exact ((hstay q r path).mp ho).2 rfl
  | user k => exact huser q k ((hf.kept q hq).symm.trans ho)

theorem uvmfree_spec {sz : Nat} (hk : Kmem own s) (ht : Tables own s) (h : Space own s r (pages sz))
    (habove : ∀ va < 2 ^ 39, TRAPFRAME ≤ va → mapping s r va = .none) :
    Wp E (uvmfree r sz) s fun _ s' => ∃ own', Gone r own own' s s' := by
  have hmax := TRAPFRAME_lt
  have hbound := h.bound
  have hsz : sz ≤ pages sz * 4096 := by
    rw [pages]
    omega
  -- after the user's pages have been freed
  have hrest : ∀ own1 s1, Local (Owner.Tree r) own own1 s s1 → Kmem own1 s1 → Tables own1 s1 →
      Space own1 s1 r 0 → (∀ va < 2 ^ 39, TRAPFRAME ≤ va → mapping s1 r va = .none) →
      Wp E (freewalk 3 r) s1 fun _ s' => ∃ own', Gone r own own' s s' := by
    intro own1 s1 hl hk1 ht1 hs1 ha1
    refine (freewalk_root hk1 ht1 hs1.root (fun va hva => ?_) fun p k hp => ?_).mono ?_
    · by_cases hlt : va < TRAPFRAME
      · exact hs1.mapping_none (by simp) hlt
      · exact ha1 va hva (by omega)
    · exact absurd (hs1.owned p k hp).1 (Nat.not_lt_zero _)
    · rintro _ s' ⟨own', hg⟩
      exact ⟨own', hg.kmem, hg.tables, hl.trans hg.loc, hg.none⟩
  rw [uvmfree]
  by_cases hpos : 0 < sz
  · have hcount : PGROUNDUP sz / PGSIZE = pages sz - 0 := by
      rw [PGROUNDUP_pages (by omega), PGSIZE]
      omega
    have hzero : 0 = 0 * 4096 := rfl
    rw [if_pos hpos, wp_bind, hcount, hzero]
    refine (h.unmap hk ht (Nat.zero_le _)).mono ?_
    rintro _ s1 ⟨own1, hs, hspace⟩
    refine hrest own1 s1 hs.isLocal hs.kmem hs.tables hspace fun va hva hle => ?_
    have hlookup : lookup s1 r va = lookup s r va := by rw [hs.lookup va hva, if_neg (by omega)]
    rw [mapping_congr hlookup]
    exact habove va hva hle
  · obtain rfl : sz = 0 := by omega
    rw [if_neg hpos]
    exact hrest own s .refl hk ht h habove

end Xv6.Vm
