import Xv6.Kernel.Vm.PageTable

namespace Xv6.Vm

open ByteCodec Hoare Function

variable {s s' : Mem} {va : Nat} {E : Stop → Prop}

theorem MAXVA_lt : MAXVA < 2 ^ 39 := by decide

variable {va' : Nat}

theorem lookupFrom_page {level p : Nat} (h : ∀ l ≤ level, PX l va = PX l va') :
    lookupFrom s va level p = lookupFrom s va' level p := by
  induction level generalizing p with
  | zero => rw [lookupFrom, lookupFrom, h 0 (Nat.le_refl _)]
  | succ level ih =>
    rw [lookupFrom, lookupFrom, h (level + 1) (Nat.le_refl _)]
    split_ifs
    · exact ih fun l hl => h l (by omega)
    · rfl

theorem lookup_page {r : Nat} (hva : va < 2 ^ 39) (hva' : va' < 2 ^ 39)
    (h : va / PGSIZE = va' / PGSIZE) : lookup s r va = lookup s r va' := by
  obtain ⟨h2, h1, h0⟩ := (PX_inj hva hva').mpr h
  refine lookupFrom_page fun l hl => ?_
  obtain rfl | rfl | rfl : l = 0 ∨ l = 1 ∨ l = 2 := by omega
  · exact h0
  · exact h1
  · exact h2

section

variable [Machine] {own own' : Nat → Owner} {r : Nat} {path : List Nat} {p q i : Nat}
  {n perm pa : Nat}

/-- The loop of `mappages` has mapped the first `m` of its pages, and all of them if it has got to
the end. -/
theorem mappagesLoop_spec {a : Nat} (hk : Kmem own s) (ht : Tables own s)
    (hr : own r = .table r []) (ha : a % 4096 = 0) (hbound : a + n * 4096 ≤ MAXVA)
    (hpa : pa + n * 4096 ≤ 2 ^ 64) (hperm : perm < 1024)
    (hclear : ∀ va, a ≤ va → va < a + n * 4096 → ¬ Flag (lookup s r va) PTE_V) :
    Wp E (mappagesLoop r perm n a pa) s fun done s' => ∃ own' m, Grows r own own' s s' ∧
      (∀ q k, own' q = .user r k → own q = .user r k) ∧ m ≤ n ∧ (done = true ↔ m = n) ∧
      ∀ va, va < 2 ^ 39 → lookup s' r va = if a ≤ va ∧ va < a + m * 4096 then
          PA2PTE (pa + (va - a) / 4096 * 4096) ||| perm ||| PTE_V
        else lookup s r va := by
  induction n generalizing s own a pa with
  | zero =>
    refine ⟨own, 0, .refl hk ht, fun _ _ h => h, Nat.le_refl _, by simp, fun va _ => ?_⟩
    rw [if_neg (by omega)]
  | succ n ih =>
    have hmax : MAXVA < 2 ^ 39 := MAXVA_lt
    rw [mappagesLoop]
    refine (walk_spec hk ht hr (by omega)).bind ?_
    rintro res s1 ⟨own1, hgrows, hlookup, huser, hres⟩
    have hr1 : own1 r = .table r [] := hgrows.kept hr (by simp)
    cases res with
    | none =>
      refine ⟨own1, 0, hgrows, huser, by omega, by simp, fun va _ => ?_⟩
      rw [if_neg (by omega)]
      exact hlookup r va hr
    | some pi =>
      obtain ⟨p, i⟩ := pi
      obtain ⟨hp, rfl⟩ := hres p i rfl
      have hinvalid : ¬ Flag (s1.word p (PX 0 a)) PTE_V := by
        rw [← hgrows.tables.lookup_word hr1 hp, hlookup r a hr]
        exact hclear a (by omega) (by omega)
      simp only [wp_bind, wp_get, if_neg hinvalid, wp_set]
      have hset := Grows.setLeaf (i := PX 0 a) (v := PA2PTE pa ||| perm ||| PTE_V) hgrows.kmem
        hgrows.tables hp (idx_length a 2)
      have hmap : ∀ va, va < 2 ^ 39 →
          lookup (s1.setWord p (PX 0 a) (PA2PTE pa ||| perm ||| PTE_V)) r va =
            if va / 4096 = a / 4096 then PA2PTE pa ||| perm ||| PTE_V else lookup s r va := by
        intro va hva
        rw [hgrows.tables.lookup_setLeaf hp (entry_lt (by omega) hperm) (by omega) hva hr1,
          hlookup r va hr, PGSIZE]
      refine (ih (a := a + PGSIZE) hset.kmem hset.tables hr1 ?_ ?_ ?_ ?_).mono ?_
      · rw [PGSIZE]
        omega
      · rw [PGSIZE]
        omega
      · rw [PGSIZE]
        omega
      · intro va hle hlt
        rw [PGSIZE] at hle hlt
        rw [hmap va (by omega), if_neg (by omega)]
        exact hclear va (by omega) (by omega)
      rintro done s3 ⟨own3, m, hgrows3, huser3, hm, hdone, hmap3⟩
      refine ⟨own3, m + 1, (hgrows.trans hset).trans hgrows3,
        fun q k hq => huser q k (huser3 q k hq), by omega, by rw [hdone]; omega, ?_⟩
      intro va hva
      rw [hmap3 va hva, hmap va hva, PGSIZE]
      by_cases hin : a ≤ va ∧ va < a + (m + 1) * 4096
      · rw [if_pos hin]
        by_cases hfirst : va / 4096 = a / 4096
        · rw [if_neg (by omega), if_pos hfirst, show (va - a) / 4096 = 0 by omega]
          rfl
        · have hpage : (pa + 4096) % 2 ^ 64 + (va - (a + 4096)) / 4096 * 4096 =
              pa + (va - a) / 4096 * 4096 := by omega
          rw [if_pos (by omega), hpage]
      · rw [if_neg hin, if_neg (by omega), if_neg (by omega)]

/-- The pages of the user from `lo` up to `hi` are no longer in the map of `r`; if they were to be
freed, they are free. -/
structure Shrinks (r lo hi : Nat) (doFree : Bool) (own own' : Nat → Owner) (s s' : Mem) : Prop where
  kmem : Kmem own' s'
  tables : Tables own' s'
  owner : ∀ p, own' p = own p ∨
    doFree = true ∧ own' p = .free ∧ ∃ k, own p = .user r k ∧ lo ≤ k ∧ k < hi
  freed : doFree = true → ∀ k, lo ≤ k → k < hi → own' (PTE2PA (lookup s r (k * 4096))) = .free
  frame : ∀ q, q % PGSIZE = 0 → own' q = own q → (∀ path, own q ≠ .table r path) →
    s'.page (q / PGSIZE) = s.page (q / PGSIZE)
  lookup : ∀ va, va < 2 ^ 39 → lookup s' r va =
    if lo * 4096 ≤ va ∧ va < hi * 4096 then 0 else lookup s r va

variable {doFree : Bool} {lo : Nat}

theorem Shrinks.kept {hi : Nat} (h : Shrinks r lo hi doFree own own' s s')
    {o : Owner} (hp : own p = o) (ho : ∀ k, o ≠ .user r k) : own' p = o := by
  rcases h.owner p with hsame | ⟨-, -, k, hk, -⟩
  · rw [hsame, hp]
  · rw [hp] at hk
    exact absurd hk (ho k)

theorem Shrinks.refl (hk : Kmem own s) (ht : Tables own s) :
    Shrinks r lo lo doFree own own s s where
  kmem := hk
  tables := ht
  owner _ := .inl rfl
  freed _ k hlo hhi := absurd hlo (Nat.not_le.mpr hhi)
  frame _ _ _ _ := rfl
  lookup va _ := by rw [if_neg (by omega)]

theorem Shrinks.trans {mid hi : Nat} {own'' : Nat → Owner} {s'' : Mem}
    (h : Shrinks r lo mid doFree own own' s s') (h' : Shrinks r mid hi doFree own' own'' s' s'')
    (hlo : lo ≤ mid) (hhi : mid ≤ hi) (hbound : hi * 4096 ≤ MAXVA) :
    Shrinks r lo hi doFree own own'' s s'' := by
  have hmax : MAXVA < 2 ^ 39 := MAXVA_lt
  refine ⟨h'.kmem, h'.tables, ?_, ?_, ?_, ?_⟩
  · intro p
    rcases h'.owner p with hsame' | ⟨hdo, hfree, k, hk, hle, hlt⟩
    · rcases h.owner p with hsame | ⟨hdo, hfree, k, hk, hle, hlt⟩
      · exact .inl (hsame'.trans hsame)
      · exact .inr ⟨hdo, hsame'.trans hfree, k, hk, hle, by omega⟩
    · rcases h.owner p with hsame | ⟨-, hfree', -⟩
      · exact .inr ⟨hdo, hfree, k, hsame ▸ hk, by omega, hlt⟩
      · rw [hfree'] at hk
        cases hk
  · intro hdo k hle hlt
    by_cases hmid : k < mid
    · exact h'.kept (h.freed hdo k hle hmid) (by simp)
    · have hsame : Vm.lookup s' r (k * 4096) = Vm.lookup s r (k * 4096) := by
        rw [h.lookup _ (by omega), if_neg (by omega)]
      rw [← hsame]
      exact h'.freed hdo k (by omega) hlt
  · intro q hq hown htable
    have hown' : own' q = own q := by
      rcases h.owner q with hsame | ⟨-, hfree, k, hk, -⟩
      · exact hsame
      · have := h'.kept hfree (by simp)
        rw [hown, hk] at this
        cases this
    rw [h'.frame q hq (hown.trans hown'.symm) (by rwa [hown']), h.frame q hq hown' htable]
  · intro va hva
    rw [h'.lookup va hva, h.lookup va hva]
    split_ifs
    all_goals first | rfl | omega

variable {k : Nat}

theorem Shrinks.clear {s1 : Mem} (hk : Kmem own s) (ht : Tables own s)
    (hr : own r = .table r []) (hbound : k * 4096 < MAXVA)
    (hp : own p = .table r (idx (k * 4096) 2)) (hstep : doFree = false ∧ own' = own ∧ s1 = s ∨
      doFree = true ∧ own (PTE2PA (Vm.lookup s r (k * 4096))) = .user r k ∧
        own' = update own (PTE2PA (Vm.lookup s r (k * 4096))) .free ∧ Kmem own' s1 ∧
        Mem.Only (PTE2PA (Vm.lookup s r (k * 4096))) s s1) :
    Shrinks r k (k + 1) doFree own own' s (s1.setWord p (PX 0 (k * 4096)) 0) := by
  have hmax : MAXVA < 2 ^ 39 := MAXVA_lt
  generalize hpa : PTE2PA (Vm.lookup s r (k * 4096)) = pa at hstep
  have howner : ∀ q, own' q = own q ∨ doFree = true ∧ own' q = .free ∧ own q = .user r k ∧ q = pa := by
    intro q
    rcases hstep with ⟨-, rfl, -⟩ | ⟨hdo, huser, rfl, -⟩
    · exact .inl rfl
    · by_cases hq : q = pa
      · subst hq
        exact .inr ⟨hdo, update_self .., huser, rfl⟩
      · exact .inl (update_of_ne hq ..)
  have hkeep : ∀ {q r' path'}, own q = .table r' path' → own' q = .table r' path' := by
    intro q r' path' hq
    rcases howner q with hsame | ⟨-, -, huser, -⟩
    · rw [hsame, hq]
    · rw [hq] at huser
      cases huser
  have hpage : ∀ {q}, q % PGSIZE = 0 → own' q = own q →
      s1.page (q / PGSIZE) = s.page (q / PGSIZE) := by
    intro q hq hown
    rcases hstep with ⟨-, -, rfl⟩ | ⟨-, huser, rfl, -, hframe⟩
    · rfl
    · refine hframe q hq ?_
      rintro rfl
      rw [update_self, huser] at hown
      cases hown
  have hk1 : Kmem own' s1 := by
    rcases hstep with ⟨-, rfl, rfl⟩ | ⟨-, -, -, hk1, -⟩
    · exact hk
    · exact hk1
  have ht1 : Tables own' s1 := by
    have ht1 : Tables own s1 := ht.congr fun q r' path' hq =>
      hpage (ht.pool hq).1 ((hkeep hq).trans hq.symm)
    refine ht1.reown fun q r' path' => ⟨fun hq => ?_, hkeep⟩
    rcases howner q with hsame | ⟨-, hfree, -⟩
    · rwa [hsame] at hq
    · rw [hfree] at hq
      cases hq
  have hlookup : ∀ va, Vm.lookup s1 r va = Vm.lookup s r va := fun va =>
    ht.lookupFrom_congr hr rfl fun q path' hq => hpage (ht.pool hq).1 ((hkeep hq).trans hq.symm)
  refine ⟨hk1.setPage (ht.pool hp).1 (by rw [hkeep hp]; simp),
    ht1.setLeaf (hkeep hp) (idx_length _ 2), ?_, ?_, ?_, ?_⟩
  · intro q
    rcases howner q with hsame | ⟨hdo, hfree, huser, -⟩
    · exact .inl hsame
    · exact .inr ⟨hdo, hfree, k, huser, Nat.le_refl _, Nat.lt_succ_self _⟩
  · intro hdo k' hle hlt
    obtain rfl : k' = k := by omega
    rcases hstep with ⟨hno, -⟩ | ⟨-, -, rfl, -⟩
    · rw [hdo] at hno
      cases hno
    · rw [hpa, update_self]
  · intro q hq hown htable
    rw [Mem.setWord_page_ne (ht.pool hp).1 hq, hpage hq hown]
    rintro rfl
    exact htable _ hp
  · intro va hva
    rw [ht1.lookup_setLeaf (hkeep hp) (by decide) (by omega) hva (hkeep hr), hlookup, PGSIZE]
    refine if_congr ?_ rfl rfl
    omega

section

variable (hk : Kmem own s) (ht : Tables own s) (hr : own r = .table r [])
  (hbound : (k + n) * 4096 ≤ MAXVA)
  (hvalid : ∀ j, k ≤ j → j < k + n → Flag (lookup s r (j * 4096)) PTE_V ∧
    PTE_FLAGS (lookup s r (j * 4096)) ≠ PTE_V)
  (hown : doFree = true → ∀ j, k ≤ j → j < k + n →
    own (PTE2PA (lookup s r (j * 4096))) = .user r j ∧ Pool (PTE2PA (lookup s r (j * 4096))))
include hk ht hr hbound hvalid hown

/-- The loop of `uvmunmap` over `n` pages that are all mapped. -/
theorem uvmunmapLoop_spec :
    Wp E (uvmunmapLoop r doFree n (k * 4096)) s fun _ s' =>
      ∃ own', Shrinks r k (k + n) doFree own own' s s' := by
  induction n generalizing s own k with
  | zero => exact ⟨own, .refl hk ht⟩
  | succ n ih =>
    have hbound' : (k + 1 + n) * 4096 ≤ MAXVA := by lia
    obtain ⟨hv, hleaf⟩ := hvalid k (Nat.le_refl _) (by omega)
    obtain ⟨p, hdesc⟩ := descend_of_valid hv
    have hp : own p = .table r (idx (k * 4096) 2) := ht.descend hr rfl hdesc
    have hword := ht.lookup_word hr hp
    rw [hword] at hv hleaf
    rw [uvmunmapLoop, wp_bind, wp_walk_false (by omega), hdesc]
    simp only [Option.map_some, wp_bind, wp_get, hv, hleaf, not_true_eq_false, if_false]
    have hrest : ∀ own1 (s1 : Mem), Shrinks r k (k + 1) doFree own own1 s
        (s1.setWord p (PX 0 (k * 4096)) 0) →
        Wp E (uvmunmapLoop r doFree n (k * 4096 + PGSIZE)) (s1.setWord p (PX 0 (k * 4096)) 0)
          fun _ s' => ∃ own', Shrinks r k (k + (n + 1)) doFree own own' s s' := by
      intro own1 s1 hshrinks
      rw [show k * 4096 + PGSIZE = (k + 1) * 4096 by rw [PGSIZE]; omega]
      have hsame : ∀ j, k + 1 ≤ j → j < k + 1 + n →
          lookup (s1.setWord p (PX 0 (k * 4096)) 0) r (j * 4096) = lookup s r (j * 4096) := by
        intro j hle hlt
        have hmax : MAXVA < 2 ^ 39 := MAXVA_lt
        rw [hshrinks.lookup _ (by omega), if_neg (by omega)]
      refine (ih (k := k + 1) hshrinks.kmem hshrinks.tables (hshrinks.kept hr (by simp)) hbound'
        ?_ ?_).mono ?_
      · intro j hle hlt
        rw [hsame j hle hlt]
        exact hvalid j (by omega) (by omega)
      · intro hdo j hle hlt
        rw [hsame j hle hlt]
        obtain ⟨huser, hpool⟩ := hown hdo j (by omega) (by omega)
        refine ⟨?_, hpool⟩
        rcases hshrinks.owner (PTE2PA (lookup s r (j * 4096))) with hsame' | ⟨-, -, k', hk', hle', hlt'⟩
        · rw [hsame', huser]
        · rw [huser] at hk'
          cases hk'
          omega
      · rintro _ s' ⟨own', hshrinks'⟩
        rw [show k + 1 + n = k + (n + 1) by omega] at hshrinks'
        exact ⟨own', hshrinks.trans hshrinks' (by omega) (by omega) hbound⟩
    cases doFree with
    | false =>
      simp only [Bool.false_eq_true, if_false]
      exact hrest own s (.clear hk ht hr (by omega) hp (.inl ⟨rfl, rfl, rfl⟩))
    | true =>
      obtain ⟨huser, hpool⟩ := hown rfl k (Nat.le_refl _) (by omega)
      rw [hword] at huser hpool
      simp only [if_true, wp_bind]
      refine (kfree_spec hk hpool (by rw [huser]; simp)).mono ?_
      rintro _ s1 ⟨hk1, hframe⟩
      rw [wp_modify]
      refine hrest (update own (PTE2PA (s.word p (PX 0 (k * 4096)))) .free) s1
        (.clear hk ht hr (by omega) hp (.inr ⟨rfl, ?_⟩))
      rw [hword]
      exact ⟨huser, rfl, hk1, hframe⟩

theorem uvmunmap_spec :
    Wp E (uvmunmap r (k * 4096) n doFree) s fun _ s' =>
      ∃ own', Shrinks r k (k + n) doFree own own' s s' := by
  have hmax : MAXVA < 2 ^ 39 := MAXVA_lt
  have hcount : ((k * 4096 + n * PGSIZE) % 2 ^ 64 - k * 4096 + PGSIZE - 1) / PGSIZE = n := by
    rw [PGSIZE]
    omega
  have haligned : ¬ k * 4096 % PGSIZE ≠ 0 := by
    rw [PGSIZE]
    omega
  rw [uvmunmap]
  simp only [if_neg haligned, hcount]
  exact uvmunmapLoop_spec hk ht hr hbound hvalid hown

end

section

omit [Machine]

/-- `mappages` does not get beyond the last address: `walk` panics before. -/
theorem mappagesLoop_overrun {a : Nat} (ha : a % 4096 = 0) (hn : 0 < n)
    (hbound : MAXVA < a + n * 4096) :
    Wp Any (mappagesLoop r perm n a pa) s fun done _ => done = false := by
  have hany : ∀ {α : Type} (x : MemM α) (s : Mem), Wp Any x s fun _ _ => True := by
    intro α x s
    unfold Wp
    split <;> trivial
  induction n generalizing s a pa with
  | zero => omega
  | succ n ih =>
    rw [mappagesLoop, wp_bind]
    by_cases hmax : MAXVA ≤ a
    · rw [walk]
      simp only [if_pos hmax]
      trivial
    refine (hany (walk r a true) s).mono fun res s1 _ => ?_
    cases res with
    | none => rfl
    | some pi =>
      obtain ⟨p, i⟩ := pi
      simp only [wp_bind, wp_get]
      rw [wp_ite]
      split_ifs
      · trivial
      have hmod : MAXVA % 4096 = 0 := by decide
      refine ih (a := a + PGSIZE) ?_ (by omega) ?_
      all_goals
        rw [PGSIZE]
        omega

theorem wp_walkaddr {Q : Nat → Mem → Prop} (hva : va < MAXVA) :
    Wp E (walkaddr r va) s Q ↔
      Q (if Flag (lookup s r va) PTE_V ∧ Flag (lookup s r va) PTE_U then PTE2PA (lookup s r va)
        else 0) s := by
  rw [walkaddr, if_neg (Nat.not_le.mpr hva), wp_bind, wp_walk_false hva]
  cases hd : descend s va 2 r with
  | none =>
    rw [lookup, lookupFrom_none hd, if_neg fun h => not_flag_zero _ h.1]
    rfl
  | some p =>
    rw [lookup, lookupFrom_descend hd]
    simp only [Option.map_some, wp_bind, wp_get]
    by_cases hv : Flag (s.word p (PX 0 va)) PTE_V
    · by_cases hu : Flag (s.word p (PX 0 va)) PTE_U
      · simp only [hv, hu, not_true_eq_false, if_false, and_self, if_true, wp_pure]
      · simp only [hv, hu, not_true_eq_false, if_false, not_false_eq_true, and_false, if_true,
          wp_pure]
    · simp only [hv, not_false_eq_true, if_true, false_and, if_false, wp_pure]

theorem walkaddr_eq (hva : va < MAXVA) :
    walkaddr r va s = .ok (if Flag (lookup s r va) PTE_V ∧ Flag (lookup s r va) PTE_U then
      PTE2PA (lookup s r va) else 0, s) := by
  obtain ⟨v, t, hok, rfl, rfl⟩ := ((wp_walkaddr (E := fun _ => False) (Q := fun v t =>
    v = (if Flag (lookup s r va) PTE_V ∧ Flag (lookup s r va) PTE_U then PTE2PA (lookup s r va)
      else 0) ∧ t = s) hva).mpr ⟨rfl, rfl⟩).total
  exact hok

end

/-- A well-formed tree with the root `r`, in a memory in which each page has one use. -/
structure Sv39 (own : Nat → Owner) (s : Mem) (r : Nat) : Prop where
  kmem : Kmem own s
  tables : Tables own s
  root : own r = .table r []

omit [Machine] in
theorem walk_false_ok {res : Option (Nat × Nat)} (hva : va < MAXVA)
    (h : walk r va false s = .ok (res, s')) :
    s' = s ∧ res = (descend s va 2 r).map fun p => (p, PX 0 va) := by
  have := (wp_walk_false (E := fun _ => False) (s := s) (Q := fun res' s' => s' = s ∧
    res' = (descend s va 2 r).map fun p => (p, PX 0 va)) hva).mpr ⟨rfl, rfl⟩
  exact this.result h

/-- What `mappages` has done when it returns 0 on a range that was not mapped. -/
theorem mappages_maps (h : Sv39 own s r) {size : Nat} (hva : va % PGSIZE = 0)
    (hpa : pa < 2 ^ 56) (hperm : perm < 1024)
    (hclear : ∀ va', va ≤ va' → va' < va + size → va' < MAXVA → ¬ Flag (lookup s r va') PTE_V)
    (hrun : mappages r va size pa perm s = .ok (true, s')) :
    va + size ≤ MAXVA ∧ (∃ own', Sv39 own' s' r) ∧ ∀ va' < 2 ^ 39, lookup s' r va' =
        if va ≤ va' ∧ va' < va + size then
          PA2PTE (pa + (va' - va) / PGSIZE * PGSIZE) ||| perm ||| PTE_V
        else lookup s r va' := by
  rw [mappages, if_neg (not_not.mpr hva)] at hrun
  by_cases hsize : size % PGSIZE = 0
  · rw [if_neg (not_not.mpr hsize)] at hrun
    by_cases hzero : size = 0
    · rw [if_pos hzero] at hrun
      cases hrun
    rw [if_neg hzero] at hrun
    rw [PGSIZE] at *
    have hn : size / 4096 * 4096 = size := by omega
    by_cases hbound : va + size ≤ MAXVA
    · have hmax : MAXVA < 2 ^ 39 := MAXVA_lt
      obtain ⟨own', m, hgrows, -, -, hdone, hmap⟩ :=
        (mappagesLoop_spec (E := fun _ => False) h.kmem h.tables h.root hva
          (by rw [hn]; exact hbound) (by omega) hperm
          (fun va' hle hlt => hclear va' hle (by omega) (by omega))).result hrun
      rw [hdone.mp rfl, hn] at hmap
      exact ⟨hbound, ⟨own', hgrows.kmem, hgrows.tables, hgrows.kept h.root (by simp)⟩, hmap⟩
    · cases (mappagesLoop_overrun hva (by omega) (by omega)).result hrun
  · rw [if_pos hsize] at hrun
    cases hrun

omit [Machine] in
theorem page_lt {j : Nat} (h : j < k + n) : j * 4096 < k * 4096 + n * 4096 := by
  have := Nat.mul_lt_mul_of_pos_right h (by decide : 0 < 4096)
  rwa [Nat.add_mul] at this

theorem uvmunmap_removes (h : Sv39 own s r) {npages : Nat}
    (hva : va % PGSIZE = 0) (hbound : va + npages * PGSIZE ≤ MAXVA)
    (hmapped : ∀ va', va ≤ va' → va' < va + npages * PGSIZE → Flag (lookup s r va') PTE_V ∧
      PTE_FLAGS (lookup s r va') ≠ PTE_V ∧ (doFree = true →
        own (PTE2PA (lookup s r va')) = .user r (va' / PGSIZE) ∧ Pool (PTE2PA (lookup s r va')))) :
    ∃ s' own', uvmunmap r va npages doFree s = .ok ((), s') ∧ Sv39 own' s' r ∧
      ∀ va' < 2 ^ 39, lookup s' r va' =
        if va ≤ va' ∧ va' < va + npages * PGSIZE then 0 else lookup s r va' := by
  rw [PGSIZE] at *
  obtain ⟨k, rfl⟩ : ∃ k, va = k * 4096 := ⟨va / 4096, by omega⟩
  have hvalid : ∀ j, k ≤ j → j < k + npages → Flag (lookup s r (j * 4096)) PTE_V ∧
      PTE_FLAGS (lookup s r (j * 4096)) ≠ PTE_V := by
    intro j hle hlt
    obtain ⟨hv, hleaf, -⟩ := hmapped (j * 4096) (Nat.mul_le_mul_right _ hle) (page_lt hlt)
    exact ⟨hv, hleaf⟩
  have hown : doFree = true → ∀ j, k ≤ j → j < k + npages →
      own (PTE2PA (lookup s r (j * 4096))) = .user r j ∧
        Pool (PTE2PA (lookup s r (j * 4096))) := by
    intro hdo j hle hlt
    have hfree := (hmapped (j * 4096) (Nat.mul_le_mul_right _ hle) (page_lt hlt)).2.2 hdo
    rwa [Nat.mul_div_cancel _ (by decide)] at hfree
  obtain ⟨⟨⟩, s', hrun, own', hshrinks⟩ := (uvmunmap_spec (E := fun _ => False) h.kmem h.tables
    h.root (by lia) hvalid hown).total
  refine ⟨s', own', hrun, ⟨hshrinks.kmem, hshrinks.tables, hshrinks.kept h.root (by simp)⟩, ?_⟩
  intro va' hva'
  rw [hshrinks.lookup va' hva']
  refine if_congr ?_ rfl rfl
  lia

/-- Two addresses reach one entry just if they lie in one page. -/
theorem walk_same_entry (h : Sv39 own s r) (hva : va < MAXVA) (hva' : va' < MAXVA)
    {p p' : Nat × Nat} (hp : walk r va false s = .ok (some p, s))
    (hp' : walk r va' false s = .ok (some p', s)) : p = p' ↔ va / PGSIZE = va' / PGSIZE := by
  have hmax : MAXVA < 2 ^ 39 := MAXVA_lt
  obtain ⟨-, hd⟩ := walk_false_ok hva hp
  obtain ⟨-, hd'⟩ := walk_false_ok hva' hp'
  obtain ⟨q, hq, rfl⟩ := Option.map_eq_some_iff.mp hd.symm
  obtain ⟨q', hq', rfl⟩ := Option.map_eq_some_iff.mp hd'.symm
  have hown := h.tables.descend h.root rfl hq
  have hown' := h.tables.descend h.root rfl hq'
  rw [← PX_inj (hva.trans hmax) (hva'.trans hmax)]
  simp only [Prod.mk.injEq]
  constructor
  · rintro ⟨rfl, h0⟩
    rw [hown] at hown'
    simp only [idx, List.nil_append, Owner.table.injEq, List.cons.injEq, true_and] at hown'
    exact ⟨hown'.1, hown'.2.1, h0⟩
  · rintro ⟨h2, h1, h0⟩
    refine ⟨h.tables.inj hown ?_, h0⟩
    rw [hown']
    simp [idx, h1, h2]

/-- The three-level tree as a finite map. After `mappages` has returned 0 on a range that was not
mapped, every page of the range has the entry with its place in physical memory and the flags, and
`walkaddr` gives that place if it is a page of the user; other pages are as before. `uvmunmap`
removes exactly its range. Two addresses reach one entry just if they lie in one page. -/
theorem page_table_finite_map (h : Sv39 own s r) :
    (∀ va size pa perm s', va % PGSIZE = 0 → pa % PGSIZE = 0 → pa < 2 ^ 56 → perm < 1024 →
      (∀ va', va ≤ va' → va' < va + size → va' < MAXVA → ¬ Flag (lookup s r va') PTE_V) →
      mappages r va size pa perm s = .ok (true, s') →
      (∃ own', Sv39 own' s' r) ∧
      (∀ va', va ≤ va' → va' < va + size →
        PTE2PA (lookup s' r va') = pa + (va' - va) / PGSIZE * PGSIZE ∧
        PTE_FLAGS (lookup s' r va') = perm ||| PTE_V ∧
        walkaddr r va' s' =
          .ok (if Flag perm PTE_U then pa + (va' - va) / PGSIZE * PGSIZE else 0, s')) ∧
      ∀ va' < MAXVA, ¬ (va ≤ va' ∧ va' < va + size) → lookup s' r va' = lookup s r va') ∧
    (∀ va npages doFree, va % PGSIZE = 0 → va + npages * PGSIZE ≤ MAXVA →
      (∀ va', va ≤ va' → va' < va + npages * PGSIZE → Flag (lookup s r va') PTE_V ∧
        PTE_FLAGS (lookup s r va') ≠ PTE_V ∧ (doFree = true →
          own (PTE2PA (lookup s r va')) = .user r (va' / PGSIZE) ∧
            Pool (PTE2PA (lookup s r va')))) →
      ∃ s' own', uvmunmap r va npages doFree s = .ok ((), s') ∧ Sv39 own' s' r ∧
        ∀ va' < MAXVA, lookup s' r va' =
          if va ≤ va' ∧ va' < va + npages * PGSIZE then 0 else lookup s r va') ∧
    (∀ va < MAXVA, ∀ va' < MAXVA, ∀ p p', walk r va false s = .ok (some p, s) →
      walk r va' false s = .ok (some p', s) → (p = p' ↔ va / PGSIZE = va' / PGSIZE)) ∧
    (∀ va < MAXVA, ∀ q i, walk r va false s = .ok (some (q, i), s) → s.word q i = lookup s r va) ∧
    ∀ pa perm, pa % PGSIZE = 0 → pa < 2 ^ 56 → perm < 1024 →
      PTE2PA (PA2PTE pa ||| perm ||| PTE_V) = pa ∧
      PTE_FLAGS (PA2PTE pa ||| perm ||| PTE_V) = perm ||| PTE_V := by
  have hmax : MAXVA < 2 ^ 39 := MAXVA_lt
  refine ⟨?_, ?_, ?_, ?_, ?_⟩
  · intro va size pa perm s' hva hpa hlt hperm hclear hrun
    obtain ⟨hbound, hwf, hmap⟩ := mappages_maps h hva hlt hperm hclear hrun
    refine ⟨hwf, ?_, ?_⟩
    · intro va' hle hlt'
      have hpage : pa + (va' - va) / PGSIZE * PGSIZE < 2 ^ 64 ∧
          (pa + (va' - va) / PGSIZE * PGSIZE) % PGSIZE = 0 := by
        rw [PGSIZE] at *
        omega
      have hentry := hmap va' (by omega)
      rw [if_pos ⟨hle, hlt'⟩] at hentry
      refine ⟨?_, ?_, ?_⟩
      · rw [hentry]
        exact PTE2PA_entry hpage.1 hpage.2 hperm
      · rw [hentry]
        exact PTE_FLAGS_entry hperm
      · have hu : Flag (PA2PTE (pa + (va' - va) / PGSIZE * PGSIZE) ||| perm ||| PTE_V) PTE_U ↔
            Flag perm PTE_U := flag_entry (k := 4) hperm (by decide) (by decide)
        rw [walkaddr_eq (by omega), hentry, PTE2PA_entry hpage.1 hpage.2 hperm]
        simp only [hu, flag_valid, true_and]
    · intro va' hlt' hout
      rw [hmap va' (by omega), if_neg hout]
  · intro va npages doFree hva hbound hmapped
    obtain ⟨s', own', hrun, hwf, hmap⟩ := uvmunmap_removes h hva hbound hmapped
    exact ⟨s', own', hrun, hwf, fun va' hlt => hmap va' (by omega)⟩
  · intro va hva va' hva' p p' hp hp'
    exact walk_same_entry h hva hva' hp hp'
  · intro va hva q i hrun
    obtain ⟨-, hd⟩ := walk_false_ok hva hrun
    obtain ⟨q', hq, heq⟩ := Option.map_eq_some_iff.mp hd.symm
    cases heq
    exact (lookupFrom_descend hq).symm
  · intro pa perm hpa hlt hperm
    exact ⟨PTE2PA_entry (by omega) hpa hperm, PTE_FLAGS_entry hperm⟩

end

/-- A machine with 16 pages for the allocator. -/
@[reducible] def smallMachine : Machine where
  kend := PHYSTOP - 16 * PGSIZE
  trampoline := KERNBASE
  kernbase_le := by decide
  le_phystop := by decide
  aligned := by decide
  kernbase_le_trampoline := by decide
  trampoline_lt := by decide

def blank : Mem := ⟨fun _ _ => 0, 0, []⟩

/-- The first page table after `kinit` has nothing in it. -/
theorem sv39_of_uvmcreate [Machine] {s0 s : Mem} {r : Nat} (hinit : kinit blank = .ok ((), s0))
    (hcreate : uvmcreate s0 = .ok (r, s)) (hr : r ≠ 0) :
    ∃ own, Sv39 own s r ∧ (∀ va, lookup s r va = 0) ∧ ∀ p r' k, own p ≠ .user r' k := by
  have hk : Kmem (fun p => if Pool p then .free else .none) s0 :=
    (kinit_spec (E := fun _ => False) rfl).result hinit
  have hno : ∀ {p r path}, (if Pool p then Owner.free else .none) ≠ .table r path := by
    intro p r path
    split_ifs <;> simp
  have ht : Tables (fun p => if Pool p then .free else .none) s0 :=
    ⟨fun h => absurd h hno, fun h => absurd h hno, fun h => absurd h hno, fun h => absurd h hno⟩
  rcases (uvmcreate_spec (E := fun _ => False) hk ht).result hcreate with
    ⟨h0, -⟩ | ⟨-, -, hk', ht', hempty, -⟩
  · exact absurd h0 hr
  · refine ⟨_, ⟨hk', ht', update_self ..⟩, hempty, fun p r' k => ?_⟩
    by_cases hp : p = r
    · simp [hp]
    · rw [update_of_ne hp]
      split_ifs <;> simp

/-- Maps the first page of the kernel at 0 in a new page table, and looks it up. -/
def mapFirst [Machine] (perm : Nat) : MemM (Nat × Bool × Nat) := do
  kinit
  let r ← uvmcreate
  let done ← mappages r 0 PGSIZE KERNBASE perm
  let pa ← walkaddr r 0
  pure (r, done, pa)

theorem mapFirst_parts (perm r : Nat) (done : Bool) (pa : Nat) (hr : r ≠ 0)
    (h : (@mapFirst smallMachine perm blank).toOption.map Prod.fst = some (r, done, pa)) :
    ∃ own s s', @Sv39 smallMachine own s r ∧ (∀ va, lookup s r va = 0) ∧
      mappages r 0 PGSIZE KERNBASE perm s = .ok (done, s') ∧ walkaddr r 0 s' = .ok (pa, s') := by
  let := smallMachine
  obtain ⟨t, hok⟩ := ok_of_toOption h
  obtain ⟨⟨⟩, s0, hinit, hok⟩ := bind_ok hok
  obtain ⟨r, s, hcreate, hok⟩ := bind_ok hok
  obtain ⟨done', s', hmap, hok⟩ := bind_ok hok
  obtain ⟨pa', s'', hwalk, hok⟩ := bind_ok hok
  cases hok
  obtain ⟨own, hwf, hempty, -⟩ := sv39_of_uvmcreate hinit hcreate hr
  have hsame : t = s' := by
    rw [walkaddr_eq (by decide)] at hwalk
    cases hwalk
    rfl
  rw [hsame] at hwalk
  exact ⟨own, s, s', hwf, hempty, hmap, hwalk⟩

/-- A page of the user is found where it was mapped. -/
theorem page_table_finite_map_user : ∃ s s' r,
    mappages r 0 PGSIZE KERNBASE (PTE_R ||| PTE_U) s = .ok (true, s') ∧
      PTE2PA (lookup s' r 5) = KERNBASE ∧ walkaddr r 5 s' = .ok (KERNBASE, s') := by
  obtain ⟨own, s, s', hwf, hempty, hrun, -⟩ := mapFirst_parts (PTE_R ||| PTE_U) (PHYSTOP - PGSIZE)
    true KERNBASE (by decide) (by decide +kernel)
  let := smallMachine
  obtain ⟨-, hmap, -⟩ := (page_table_finite_map hwf).1 0 PGSIZE KERNBASE (PTE_R ||| PTE_U) s'
    (by decide) (by decide) (by decide) (by decide)
    (fun va _ _ _ => by rw [hempty]; exact not_flag_zero _) hrun
  obtain ⟨hpa, -, hwalk⟩ := hmap 5 (by decide) (by decide)
  exact ⟨s, s', _, hrun, hpa, hwalk⟩

/-- `walkaddr` does not find a page that is not the user's. -/
theorem walkaddr_not_user : ∃ s s' r, (∃ own, @Sv39 smallMachine own s r) ∧
    (∀ va, lookup s r va = 0) ∧ mappages r 0 PGSIZE KERNBASE PTE_R s = .ok (true, s') ∧
      walkaddr r 0 s' = .ok (0, s') := by
  obtain ⟨own, s, s', hwf, hempty, hrun, hwalk⟩ :=
    mapFirst_parts PTE_R (PHYSTOP - PGSIZE) true 0 (by decide) (by decide +kernel)
  exact ⟨s, s', _, ⟨own, hwf⟩, hempty, hrun, hwalk⟩

end Xv6.Vm
