import Xv6.Kernel.Param
import Xv6.Kernel.Vm.Memory

namespace Xv6.Vm

open ByteCodec Hoare Function

/-- What a page of physical memory is in use for. A page-table page is known by the root of its tree
and the indices on the way from there, a page of a user by the root and its page number. -/
inductive Owner
  | none
  | free
  | held
  | boot
  | table (root : Nat) (path : List Nat)
  | user (root vpn : Nat)
  | trapframe (i : Fin NPROC)
  | pipe
  deriving DecidableEq

def Pool [Machine] (p : Nat) : Prop := p % PGSIZE = 0 ∧ Machine.kend ≤ p ∧ p < PHYSTOP

instance Pool.decidable [Machine] (p : Nat) : Decidable (Pool p) :=
  inferInstanceAs (Decidable (_ ∧ _ ∧ _))

variable {p : Nat}

theorem Pool.ne_zero [Machine] (h : Pool p) : p ≠ 0 := by
  have hpos : 0 < KERNBASE := by decide
  have hle := Machine.kernbase_le
  have := h.2.1
  omega

theorem Pool.lt [Machine] (h : Pool p) : p < 2 ^ 64 := by
  have hlt : PHYSTOP < 2 ^ 64 := by decide
  exact h.2.2.trans hlt

theorem div_ne_of_aligned {q : Nat} (hp : p % PGSIZE = 0) (hq : q % PGSIZE = 0) (h : q ≠ p) :
    q / PGSIZE ≠ p / PGSIZE := by
  rw [PGSIZE] at *
  omega

namespace Mem

variable {s : Mem} {p q i j v : Nat} {pg : Page}

@[simp] theorem setPage_self : (s.setPage p pg).page (p / PGSIZE) = pg := update_self ..

theorem setPage_ne (h : q / PGSIZE ≠ p / PGSIZE) :
    (s.setPage p pg).page (q / PGSIZE) = s.page (q / PGSIZE) := update_of_ne h ..

theorem setWord_page_ne (hp : p % PGSIZE = 0) (hq : q % PGSIZE = 0) (h : q ≠ p) :
    (s.setWord p i v).page (q / PGSIZE) = s.page (q / PGSIZE) :=
  setPage_ne (div_ne_of_aligned hp hq h)

/-- No page has changed but the one at `p`. -/
abbrev Only (p : Nat) (s s' : Mem) : Prop :=
  ∀ q, q % PGSIZE = 0 → q ≠ p → s'.page (q / PGSIZE) = s.page (q / PGSIZE)

theorem Only.setPage {s' : Mem} (hp : p % PGSIZE = 0) (h : Only p s s') :
    Only p s (s'.setPage p pg) :=
  fun q hq hqp => (setPage_ne (div_ne_of_aligned hp hq hqp)).trans (h q hq hqp)

theorem word_congr {s' : Mem} (h : s'.page (p / PGSIZE) = s.page (p / PGSIZE)) :
    s'.word p i = s.word p i := by
  rw [word, word, h]

theorem word_setWord_self (hi : i < 512) (hv : v < 2 ^ 64) : (s.setWord p i v).word p i = v := by
  rw [word, setWord, setPage_self, Codec.get_put_self _ _ _ _ (by rw [PGSIZE]; omega)]
  exact Nat.mod_eq_of_lt hv

theorem word_setWord_index (h : j ≠ i) : (s.setWord p i v).word p j = s.word p j := by
  rw [word, setWord, setPage_self, Codec.get_put_of_ne _ _ _ _ _ _ h]
  rfl

theorem word_setWord_ne (hp : p % PGSIZE = 0) (hq : q % PGSIZE = 0) (h : q ≠ p) :
    (s.setWord p i v).word q j = s.word q j :=
  word_congr (setWord_page_ne hp hq h)

theorem word_memset_zero : (s.memset p 0).word p i = 0 := by
  rw [word, memset, setPage_self]
  simp [Codec.get, u64]

end Mem

/-- The free list: from page to page by the first word. -/
inductive Chain (s : Mem) : Nat → List Nat → Prop
  | nil : Chain s 0 []
  | cons {p : Nat} {l : List Nat} (ne : p ≠ 0) (next : Chain s (s.word p 0) l) : Chain s p (p :: l)

theorem Chain.congr {s s' : Mem} {a : Nat} {l : List Nat} (h : Chain s a l)
    (hpage : ∀ p ∈ l, s'.page (p / PGSIZE) = s.page (p / PGSIZE)) : Chain s' a l := by
  induction h with
  | nil => exact .nil
  | @cons p l hne hnext ih =>
    refine .cons hne ?_
    rw [Mem.word_congr (hpage p (.head _))]
    exact ih fun q hq => hpage q (.tail _ hq)

section

variable [Machine]

/-- The free list holds the free pages, each once. -/
structure Kmem (own : Nat → Owner) (s : Mem) : Prop where
  chain : ∃ l, Chain s s.freelist l ∧ l.Nodup ∧ ∀ p, p ∈ l ↔ own p = .free
  pool : ∀ p, own p = .free → Pool p

variable {own own' : Nat → Owner} {s s' : Mem} {E : Stop → Prop}

section

variable (h : Kmem own s)
include h

theorem Kmem.congr (hown : ∀ p, own' p = .free ↔ own p = .free) (hfree : s'.freelist = s.freelist)
    (hpage : ∀ p, own p = .free → s'.page (p / PGSIZE) = s.page (p / PGSIZE)) : Kmem own' s' := by
  obtain ⟨l, hchain, hnodup, hmem⟩ := h.chain
  constructor
  · refine ⟨l, ?_, hnodup, fun p => (hmem p).trans (hown p).symm⟩
    rw [hfree]
    exact hchain.congr fun p hp => hpage p ((hmem p).mp hp)
  · intro p hp
    exact h.pool p ((hown p).mp hp)

theorem Kmem.setPage {pg : Page} (hp : p % PGSIZE = 0) (hown : own p ≠ .free) :
    Kmem own (s.setPage p pg) := by
  refine h.congr (fun _ => Iff.rfl) rfl fun q hq => Mem.setPage_ne ?_
  refine div_ne_of_aligned hp (h.pool q hq).1 ?_
  rintro rfl
  exact hown hq

theorem Kmem.reown {o : Owner} (hp : own p ≠ .free) (ho : o ≠ .free) : Kmem (update own p o) s := by
  refine h.congr (fun q => ?_) rfl fun _ _ => rfl
  by_cases hq : q = p
  · subst hq
    simp [hp, ho]
  · rw [update_of_ne hq]

theorem kfree_spec (hp : Pool p) (hown : own p ≠ .free) :
    Wp E (kfree p) s fun _ s' => Kmem (update own p .free) s' ∧ Mem.Only p s s' := by
  obtain ⟨haligned, hlo, hhi⟩ := hp
  have hcheck : ¬ (p % PGSIZE ≠ 0 ∨ p < Machine.kend ∨ PHYSTOP ≤ p) := by omega
  obtain ⟨l, hchain, hnodup, hmem⟩ := h.chain
  rw [kfree]
  simp only [if_neg hcheck, wp_bind, wp_modify]
  have hframe : Mem.Only p s ((s.memset p 1).setWord p 0 s.freelist) :=
    .setPage haligned (.setPage haligned fun _ _ _ => rfl)
  refine ⟨⟨⟨p :: l, .cons (Pool.ne_zero ⟨haligned, hlo, hhi⟩) ?_, ?_, ?_⟩, ?_⟩, hframe⟩
  · have hlt : s.freelist < 2 ^ 64 := by
      generalize s.freelist = a at hchain
      cases hchain with
      | nil => decide
      | cons hne hnext => exact (h.pool _ ((hmem _).mp (.head _))).lt
    have hnext : ((s.memset p 1).setWord p 0 s.freelist).word p 0 = s.freelist :=
      Mem.word_setWord_self (by decide) hlt
    change Chain _ (((s.memset p 1).setWord p 0 s.freelist).word p 0) l
    rw [hnext]
    refine hchain.congr fun q hq => hframe q (h.pool q ((hmem q).mp hq)).1 ?_
    rintro rfl
    exact hown ((hmem q).mp hq)
  · exact List.nodup_cons.mpr ⟨fun hp => hown ((hmem p).mp hp), hnodup⟩
  · intro q
    by_cases hq : q = p
    · simp [hq]
    · rw [update_of_ne hq, ← hmem q]
      simp [hq]
  · intro q hq
    by_cases hqp : q = p
    · rw [hqp]
      exact ⟨haligned, hlo, hhi⟩
    · rw [update_of_ne hqp] at hq
      exact h.pool q hq

omit h in
omit [Machine] in
theorem wp_kalloc {Q : Nat → Mem → Prop} (h0 : Q 0 { s with fails := s.fails.tail })
    (h1 : s.freelist ≠ 0 → Q s.freelist
      ({ s with fails := s.fails.tail, freelist := s.word s.freelist 0 }.memset s.freelist 5)) :
    Wp E kalloc s Q := by
  rw [kalloc]
  simp only [wp_bind, wp_get, wp_set]
  by_cases hr : (if s.fails.head? = some true then 0 else s.freelist) = 0
  · simp only [hr, ne_eq, not_true_eq_false, if_false]
    exact h0
  · have hfail : s.fails.head? ≠ some true := fun hfail => hr (if_pos hfail)
    simp only [if_neg hfail] at hr ⊢
    simp only [ne_eq, hr, not_false_eq_true, if_true]
    exact h1 hr

/-- `kalloc` returns 0 or a page that was free. -/
theorem kalloc_spec :
    Wp E kalloc s fun r s' =>
      r = 0 ∧ s'.page = s.page ∧ Kmem own s' ∨
      r ≠ 0 ∧ own r = .free ∧ Pool r ∧ Kmem (update own r .held) s' ∧ Mem.Only r s s' := by
  obtain ⟨l, hchain, hnodup, hmem⟩ := h.chain
  apply wp_kalloc
  · exact .inl ⟨rfl, rfl, h.congr (fun _ => Iff.rfl) rfl fun _ _ => rfl⟩
  intro hne
  generalize hr : s.freelist = r at *
  cases hchain with
  | nil => exact absurd rfl hne
  | @cons _ l _ hnext =>
    have hfree : own r = .free := (hmem r).mp (.head _)
    have hpool := h.pool r hfree
    obtain ⟨hnot, hnodup⟩ := List.nodup_cons.mp hnodup
    have hframe : Mem.Only r s (s.memset r 5) := .setPage hpool.1 fun _ _ _ => rfl
    refine .inr ⟨hne, hfree, hpool, ⟨⟨l, ?_, hnodup, ?_⟩, ?_⟩, hframe⟩
    · refine hnext.congr fun q hq => hframe q (h.pool q ((hmem q).mp (.tail _ hq))).1 ?_
      rintro rfl
      exact hnot hq
    · intro q
      by_cases hq : q = r
      · subst hq
        simp [hnot]
      · rw [update_of_ne hq, ← hmem q]
        simp [hq]
    intro q hq
    by_cases hqr : q = r
    · subst hqr
      simp at hq
    · rw [update_of_ne hqr] at hq
      exact h.pool q hq

end

/-- After `kinit` the pages of the allocator are free. -/
theorem kinit_spec (h : s.freelist = 0) :
    Wp E kinit s fun _ s' => Kmem (fun p => if Pool p then .free else .none) s' := by
  have hlo : PGROUNDUP Machine.kend % 4096 = 0 ∧ Machine.kend ≤ PGROUNDUP Machine.kend ∧
      PGROUNDUP Machine.kend < Machine.kend + 4096 := by
    have hle := Machine.le_phystop
    have hlt : PHYSTOP < 2 ^ 63 := by decide
    rw [PGROUNDUP, PGSIZE]
    omega
  have hhi : PHYSTOP % 4096 = 0 := by decide
  generalize hlow : PGROUNDUP Machine.kend = low at hlo
  obtain ⟨ha, hle, hlt⟩ := hlo
  -- the pages below the one the loop has come to are free
  refine (Wp.forUpto (fun i t =>
    Kmem (fun p => if Pool p ∧ p < low + i * 4096 then .free else .none) t) ?_ ?_).mono ?_
  · have hnone : ∀ p, ¬ (Pool p ∧ p < low + 0 * 4096) := by
      rintro p ⟨⟨hp, hkend, -⟩, hplt⟩
      rw [PGSIZE] at hp
      omega
    refine ⟨⟨[], ?_, List.nodup_nil, ?_⟩, ?_⟩
    · rw [h]
      exact .nil
    · intro p
      rw [if_neg (hnone p)]
      simp
    · intro p hp
      rw [if_neg (hnone p)] at hp
      cases hp
  · intro i t hi ht
    rw [hlow, PGSIZE] at *
    have hpool : Pool (low + i * 4096) := by
      refine ⟨?_, by omega, by omega⟩
      rw [PGSIZE]
      omega
    refine (kfree_spec ht hpool ?_).mono ?_
    · rw [if_neg (by omega)]
      simp
    rintro _ u ⟨hu, -⟩
    refine hu.congr (fun p => ?_) rfl fun _ _ => rfl
    by_cases hp : p = low + i * 4096
    · subst hp
      rw [update_self, if_pos ⟨hpool, by omega⟩]
    rw [update_of_ne hp]
    have : (Pool p ∧ p < low + (i + 1) * 4096) ↔ (Pool p ∧ p < low + i * 4096) := by
      refine and_congr_right fun hpp => ?_
      have := hpp.1
      rw [PGSIZE] at this
      omega
    simp only [this]
  · intro _ t ht
    refine ht.congr (fun p => ?_) rfl fun _ _ => rfl
    have : (Pool p ∧ p < low + (PHYSTOP - PGROUNDUP Machine.kend) / PGSIZE * 4096) ↔ Pool p := by
      refine and_iff_left_of_imp fun hp => ?_
      have := hp.2.2
      have hal := hp.1
      rw [hlow, PGSIZE] at *
      omega
    simp only [this]

end

end Xv6.Vm
