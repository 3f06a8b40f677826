import Xv6.Kernel.Vm.Map

namespace Xv6.Vm

open ByteCodec Hoare Option

/-- The valid entry for an address, if there is one. -/
def mapping (s : Mem) (r va : Nat) : Option Nat :=
  if Flag (lookup s r va) PTE_V then some (lookup s r va) else none

variable {s s' s'' : Mem} {r va pte : Nat} {E : Stop → Prop}

theorem mapping_eq_some : mapping s r va = some pte ↔ Flag pte PTE_V ∧ lookup s r va = pte := by
  rw [mapping]
  split_ifs with hv
  · constructor
    · intro h
      cases h
      exact ⟨hv, rfl⟩
    · rintro ⟨-, h⟩
      rw [h]
  · constructor
    · intro h
      cases h
    · rintro ⟨h, rfl⟩
      exact absurd h hv

theorem mapping_eq_none : mapping s r va = none ↔ ¬ Flag (lookup s r va) PTE_V := by
  rw [mapping]
  split_ifs with hv <;> simp [hv]

theorem mapping_congr {r' va' : Nat} (h : lookup s' r' va' = lookup s r va) :
    mapping s' r' va' = mapping s r va := by
  rw [mapping, mapping, h]

theorem mapping_page (h : va < 2 ^ 39) : mapping s r va = mapping s r (va / 4096 * 4096) := by
  refine mapping_congr (lookup_page h (by omega) ?_)
  rw [PGSIZE]
  omega

theorem ne_valid_of_read (h : Flag pte PTE_R) : PTE_FLAGS pte ≠ PTE_V := by
  intro hf
  have hread : Flag (PTE_FLAGS pte) (2 ^ 1) := (flag_flags (by decide)).mpr h
  rw [hf] at hread
  exact hread (by decide)

def pages (sz : Nat) : Nat := (sz + 4095) / 4096

theorem pages_mul (k : Nat) : pages (k * 4096) = k := by
  rw [pages]
  omega

theorem PGROUNDUP_pages {sz : Nat} (h : sz + 4095 < 2 ^ 64) : PGROUNDUP sz = pages sz * 4096 := by
  rw [PGROUNDUP, pages, PGSIZE, Nat.add_sub_assoc (by decide), Nat.mod_eq_of_lt h]

section

variable [Machine] {own own' own'' : Nat → Owner} {n k p q : Nat} {pg : Page}

/-- Only pages with a use in `M` have changed, and they still have such a use. -/
structure Local (M : Owner → Prop) (own own' : Nat → Owner) (s s' : Mem) : Prop where
  owner : ∀ p, own' p = own p ∨ M (own p) ∧ M (own' p)
  frame : ∀ q, q % PGSIZE = 0 → ¬ M (own q) → s'.page (q / PGSIZE) = s.page (q / PGSIZE)

variable {M : Owner → Prop}

section

omit [Machine]

theorem Local.refl : Local M own own s s := ⟨fun _ => .inl rfl, fun _ _ _ => rfl⟩

variable (h : Local M own own' s s')
include h

theorem Local.kept {o : Owner} (ho : ¬ M o) : own' p = o ↔ own p = o := by
  rcases h.owner p with hsame | ⟨hm, hm'⟩
  · rw [hsame]
  constructor
  · intro hp
    rw [hp] at hm'
    exact absurd hm' ho
  · intro hp
    rw [hp] at hm
    exact absurd hm ho

theorem Local.trans (h' : Local M own' own'' s' s'') : Local M own own'' s s'' := by
  refine ⟨fun p => ?_, fun q hq hm => ?_⟩
  · rcases h'.owner p with hsame' | ⟨hm, hm'⟩
    · rw [hsame']
      exact h.owner p
    · rcases h.owner p with hsame | ⟨hm0, -⟩
      · rw [hsame] at hm
        exact .inr ⟨hm, hm'⟩
      · exact .inr ⟨hm0, hm'⟩
  · have hown : own' q = own q := (h.kept hm).mpr rfl
    rw [h'.frame q hq (by rwa [hown]), h.frame q hq hm]

theorem Local.mono {N : Owner → Prop} (hMN : ∀ o, M o → N o) : Local N own own' s s' := by
  refine ⟨fun p => ?_, fun q hq hn => h.frame q hq fun hm => hn (hMN _ hm)⟩
  rcases h.owner p with hsame | ⟨hm, hm'⟩
  · exact .inl hsame
  · exact .inr ⟨hMN _ hm, hMN _ hm'⟩

end

/-- Free pages and the pages of one tree. -/
inductive Owner.Tree (r : Nat) : Owner → Prop
  | free : Owner.Tree r .free
  | table (path : List Nat) : Owner.Tree r (.table r path)
  | user (k : Nat) : Owner.Tree r (.user r k)

theorem Grows.isLocal (h : Grows r own own' s s') : Local (Owner.Tree r) own own' s s' := by
  refine ⟨fun p => ?_, fun q hq hm => h.frame q hq ?_ ?_⟩
  · rcases h.owner p with hsame | ⟨hfree, ⟨path, hp⟩ | ⟨k, hp⟩⟩
    · exact .inl hsame
    · rw [hfree, hp]
      exact .inr ⟨.free, .table path⟩
    · rw [hfree, hp]
      exact .inr ⟨.free, .user k⟩
  · intro hfree
    rw [hfree] at hm
    exact hm .free
  · intro path hp
    rw [hp] at hm
    exact hm (.table path)

variable {lo : Nat}

theorem Shrinks.isLocal {hi : Nat} {doFree : Bool} (h : Shrinks r lo hi doFree own own' s s') :
    Local (Owner.Tree r) own own' s s' := by
  refine ⟨fun p => ?_, fun q hq hm => h.frame q hq ?_ ?_⟩
  · rcases h.owner p with hsame | ⟨-, hfree, k, hp, -⟩
    · exact .inl hsame
    · rw [hfree, hp]
      exact .inr ⟨.user k, .free⟩
  · rcases h.owner q with hsame | ⟨-, -, k, hp, -⟩
    · exact hsame
    · rw [hp] at hm
      exact absurd (.user k) hm
  · intro path hp
    rw [hp] at hm
    exact hm (.table path)

theorem Local.mapping (h : Local M own own' s s') (ht : Tables own s) (hr : own r = .table r [])
    (hM : ∀ path, ¬ M (.table r path)) (va : Nat) : mapping s' r va = mapping s r va := by
  refine mapping_congr (ht.lookupFrom_congr hr rfl fun q path hq => h.frame q (ht.pool hq).1 ?_)
  rw [hq]
  exact hM path

/-- The user's part of a tree consists of the first `n` pages, each of which has a page of physical
memory of its own. -/
structure Space (own : Nat → Owner) (s : Mem) (r n : Nat) : Prop where
  root : own r = .table r []
  bound : n * 4096 ≤ TRAPFRAME
  mapped : ∀ k < n, ∃ pte, mapping s r (k * 4096) = some pte ∧ Flag pte PTE_R ∧
    own (PTE2PA pte) = .user r k ∧ Pool (PTE2PA pte)
  owned : ∀ p k, own p = .user r k →
    k < n ∧ ∃ pte, mapping s r (k * 4096) = some pte ∧ PTE2PA pte = p
  clear : ∀ k, n ≤ k → k * 4096 < TRAPFRAME → mapping s r (k * 4096) = none

omit [Machine] in
theorem TRAPFRAME_lt : TRAPFRAME < 2 ^ 39 := by decide

omit [Machine] in
theorem TRAPFRAME_le : TRAPFRAME ≤ MAXVA := by decide

section

variable (h : Space own s r n)
include h

theorem Space.lt (hk : k < n) : k * 4096 < TRAPFRAME :=
  (Nat.mul_lt_mul_of_pos_right hk (by decide)).trans_le h.bound

theorem Space.mapping_none (hle : n * 4096 ≤ va) (hlt : va < TRAPFRAME) :
    mapping s r va = none := by
  have hmax := TRAPFRAME_lt
  rw [mapping_page (by omega)]
  exact h.clear (va / 4096) (by omega) (by omega)

theorem Space.mapping_some (hlt : va < n * 4096) :
    ∃ pte, mapping s r va = some pte ∧ Flag pte PTE_R ∧ own (PTE2PA pte) = .user r (va / 4096) ∧
      Pool (PTE2PA pte) := by
  have hmax := TRAPFRAME_lt
  have hbound := h.bound
  rw [mapping_page (by omega)]
  exact h.mapped (va / 4096) (by omega)

theorem Space.isSome_iff (hlt : va < TRAPFRAME) : (mapping s r va).isSome ↔ va < n * 4096 := by
  by_cases hn : va < n * 4096
  · obtain ⟨pte, hpte, -⟩ := h.mapping_some hn
    simp [hpte, hn]
  · simp [h.mapping_none (Nat.not_lt.mp hn) hlt, hn]

theorem Space.inj {va' pte' : Nat} (hlt : va < n * 4096)
    (hlt' : va' < n * 4096) (hpte : mapping s r va = some pte) (hpte' : mapping s r va' = some pte')
    (heq : PTE2PA pte = PTE2PA pte') : va / 4096 = va' / 4096 := by
  obtain ⟨pte1, hpte1, -, hown1, -⟩ := h.mapping_some hlt
  obtain ⟨pte2, hpte2, -, hown2, -⟩ := h.mapping_some hlt'
  rw [hpte] at hpte1
  rw [hpte'] at hpte2
  cases hpte1
  cases hpte2
  rw [heq, hown2] at hown1
  exact (Owner.user.inj hown1).2.symm

/-- The user's part depends on the map and on the user's pages. -/
theorem Space.congr (hroot : own' r = .table r [])
    (hsame : ∀ va < TRAPFRAME, mapping s' r va = mapping s r va)
    (huser : ∀ p k, own' p = .user r k ↔ own p = .user r k) : Space own' s' r n := by
  refine ⟨hroot, h.bound, ?_, ?_, ?_⟩
  · intro k hk
    obtain ⟨pte, hpte, hread, hown, hpool⟩ := h.mapped k hk
    exact ⟨pte, (hsame _ (h.lt hk)).trans hpte, hread, (huser ..).mpr hown, hpool⟩
  · intro p k hp
    obtain ⟨hk, pte, hpte, hpa⟩ := h.owned p k ((huser ..).mp hp)
    exact ⟨hk, pte, (hsame _ (h.lt hk)).trans hpte, hpa⟩
  · intro k hk hlt
    exact (hsame _ hlt).trans (h.clear k hk hlt)

theorem Space.other (ht : Tables own s) (hl : Local M own own' s s')
    (htable : ∀ path, ¬ M (.table r path)) (huser : ∀ k, ¬ M (.user r k)) : Space own' s' r n :=
  h.congr ((hl.kept (htable _)).mpr h.root)
    (fun va _ => hl.mapping ht h.root htable va) fun _ k => hl.kept (huser k)

/-- There is a physical page for each page, and so there are not many. -/
theorem Space.le (hp : own p = .free) (hpool : Pool p) : n + 1 ≤ 32768 := by
  -- the numbers of the physical pages, with that of the free one
  have hpa : ∀ k : Fin n, ∃ q, own q = .user r k ∧ Pool q := by
    intro k
    obtain ⟨pte, -, -, hown, hq⟩ := h.mapped k k.isLt
    exact ⟨_, hown, hq⟩
  choose f hf using hpa
  let g : Option (Fin n) → Fin 32768 := fun k =>
    ⟨(k.elim p f - KERNBASE) / 4096 % 32768, Nat.mod_lt _ (by decide)⟩
  have hin : ∀ q, Pool q → ∃ j < 32768, q = KERNBASE + 4096 * j ∧
      (q - KERNBASE) / 4096 % 32768 = j := by
    intro q hq
    have hlo := Machine.kernbase_le.trans hq.2.1
    have hhi : q < KERNBASE + 134217728 := hq.2.2
    have hal : q % 4096 = 0 := hq.1
    have hbase : KERNBASE % 4096 = 0 := by decide
    exact ⟨(q - KERNBASE) / 4096, by omega, by omega, by omega⟩
  have hpools : ∀ k : Option (Fin n), Pool (k.elim p f) := by
    intro k
    cases k with
    | none => exact hpool
    | some k => exact (hf k).2
  have hinj : Function.Injective g := by
    intro a b hab
    obtain ⟨i, -, hi, hgi⟩ := hin _ (hpools a)
    obtain ⟨j, -, hj, hgj⟩ := hin _ (hpools b)
    have hij : i = j := by
      rw [← hgi, ← hgj]
      exact congrArg Fin.val hab
    have heq : a.elim p f = b.elim p f := by rw [hi, hj, hij]
    have hown := congrArg own heq
    cases a with
    | none =>
      cases b with
      | none => rfl
      | some b =>
        simp only [elim_none, elim_some, hp, (hf b).1] at hown
        cases hown
    | some a =>
      cases b with
      | none =>
        simp only [elim_none, elim_some, hp, (hf a).1] at hown
        cases hown
      | some b =>
        simp only [elim_some, (hf a).1, (hf b).1, Owner.user.injEq, true_and] at hown
        rw [Fin.ext hown]
  have := Fintype.card_le_of_injective g hinj
  simpa using this

end

/-- The pages from `lo` on are unmapped and freed. -/
theorem Space.shrink (h : Space own s r n) (hlo : lo ≤ n)
    (hs : Shrinks r lo n true own own' s s') : Space own' s' r lo := by
  have hmax := TRAPFRAME_lt
  have hsame : ∀ k < lo, mapping s' r (k * 4096) = mapping s r (k * 4096) := by
    intro k hk
    have := h.lt (k := k) (by omega)
    refine mapping_congr ?_
    rw [hs.lookup _ (by omega), if_neg (by omega)]
  have hstay : ∀ {p k}, own' p = .user r k → own p = .user r k ∧ k < lo := by
    intro p k hp
    rcases hs.owner p with howner | ⟨-, hfree, -⟩
    · rw [howner] at hp
      obtain ⟨hk, pte, hpte, rfl⟩ := h.owned p k hp
      refine ⟨hp, Nat.lt_of_not_le fun hle => ?_⟩
      have hfreed := hs.freed rfl k hle hk
      rw [(mapping_eq_some.mp hpte).2, howner, hp] at hfreed
      cases hfreed
    · rw [hfree] at hp
      cases hp
  refine ⟨hs.kept h.root (by simp), ?_, ?_, ?_, ?_⟩
  · exact (Nat.mul_le_mul_right _ hlo).trans h.bound
  · intro k hk
    obtain ⟨pte, hpte, hread, hown, hpool⟩ := h.mapped k (by omega)
    refine ⟨pte, (hsame k hk).trans hpte, hread, ?_, hpool⟩
    rcases hs.owner (PTE2PA pte) with howner | ⟨-, -, k', hk', hle, -⟩
    · rw [howner, hown]
    · rw [hown] at hk'
      cases hk'
      omega
  · intro p k hp
    obtain ⟨hp', hk⟩ := hstay hp
    obtain ⟨-, pte, hpte, hpa⟩ := h.owned p k hp'
    exact ⟨hk, pte, (hsame k hk).trans hpte, hpa⟩
  intro k hk hlt
  by_cases hn : k < n
  · rw [mapping_eq_none, hs.lookup _ (by omega), if_pos (by omega)]
    exact not_flag_zero _
  · have hlookup : lookup s' r (k * 4096) = lookup s r (k * 4096) := by
      rw [hs.lookup _ (by omega), if_neg (by omega)]
    rw [mapping_congr hlookup]
    exact h.clear k (by omega) hlt

theorem Space.unmap (h : Space own s r n) (hk : Kmem own s) (ht : Tables own s) (hlo : lo ≤ n) :
    Wp E (uvmunmap r (lo * 4096) (n - lo) true) s fun _ s' =>
      ∃ own', Shrinks r lo n true own own' s s' ∧ Space own' s' r lo := by
  have hpte : ∀ j < n, Flag (lookup s r (j * 4096)) PTE_V ∧
      PTE_FLAGS (lookup s r (j * 4096)) ≠ PTE_V ∧
      own (PTE2PA (lookup s r (j * 4096))) = .user r j ∧ Pool (PTE2PA (lookup s r (j * 4096))) := by
    intro j hj
    obtain ⟨pte, hpte, hread, hown, hpool⟩ := h.mapped j hj
    obtain ⟨hv, rfl⟩ := mapping_eq_some.mp hpte
    exact ⟨hv, ne_valid_of_read hread, hown, hpool⟩
  have hcount : lo + (n - lo) = n := by omega
  refine (uvmunmap_spec hk ht h.root ?_ ?_ ?_).mono ?_
  · rw [hcount]
    exact h.bound.trans TRAPFRAME_le
  · intro j _ hj
    obtain ⟨hv, hleaf, -⟩ := hpte j (by omega)
    exact ⟨hv, hleaf⟩
  · intro _ j _ hj
    exact (hpte j (by omega)).2.2
  · rintro _ s' ⟨own', hs⟩
    rw [hcount] at hs
    exact ⟨own', hs, h.shrink hlo hs⟩

/-- `uvmdealloc` takes the user's part back to `newsz`. -/
theorem uvmdealloc_spec {oldsz newsz : Nat} (h : Space own s r (pages oldsz)) (hk : Kmem own s)
    (ht : Tables own s) (hle : newsz ≤ oldsz) :
    Wp E (uvmdealloc r oldsz newsz) s fun res s' => res = newsz ∧ ∃ own',
      Shrinks r (pages newsz) (pages oldsz) true own own' s s' ∧ Space own' s' r (pages newsz) := by
  have hbound := h.bound
  have hmax := TRAPFRAME_lt
  have hsz : oldsz ≤ pages oldsz * 4096 := by
    rw [pages]
    omega
  have hpages : pages newsz ≤ pages oldsz := Nat.div_le_div_right (by omega)
  rw [uvmdealloc]
  by_cases heq : oldsz ≤ newsz
  · obtain rfl : oldsz = newsz := by omega
    simp only [Nat.le_refl, if_true, wp_pure]
    exact ⟨trivial, own, .refl hk ht, h⟩
  rw [if_neg heq, PGROUNDUP_pages (by omega), PGROUNDUP_pages (by omega)]
  by_cases hlt : pages newsz * 4096 < pages oldsz * 4096
  · have hcount : intToUint64 ((pages oldsz * 4096 - pages newsz * 4096) / PGSIZE) =
        pages oldsz - pages newsz := by
      have hdiv : (pages oldsz * 4096 - pages newsz * 4096) / PGSIZE =
          pages oldsz - pages newsz := by
        rw [PGSIZE]
        omega
      rw [hdiv, intToUint64]
      rw [if_pos (by omega)]
      omega
    rw [if_pos hlt, hcount]
    simp only [wp_bind, wp_pure]
    refine (h.unmap hk ht hpages).mono ?_
    rintro _ s' hs
    exact ⟨trivial, hs⟩
  · have hsame : pages newsz = pages oldsz := by omega
    rw [if_neg hlt, hsame]
    simp only [wp_pure]
    exact ⟨trivial, own, .refl hk ht, h⟩

end

end Xv6.Vm
