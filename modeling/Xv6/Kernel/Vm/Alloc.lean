import Xv6.Kernel.Vm.Space

namespace Xv6.Vm

open ByteCodec Hoare Function Nat

section

variable [Machine] {own own' own₀ : Nat → Owner} {s s' s₀ : Mem} {r n k mem : Nat} {pg : Page}
  {E : Stop → Prop}

/-- The user's part of the tree has grown from `n` to `k` pages. `New` says what the new pages have
in them, by page number and flags. -/
structure Grown (New : Nat → Nat → Page → Prop) (r n k : Nat) (own₀ own : Nat → Owner)
    (s₀ s : Mem) : Prop where
  grows : Grows r own₀ own s₀ s
  space : Space own s r k
  le : n ≤ k
  same : ∀ va < 2 ^ 39, ¬ (n * 4096 ≤ va ∧ va < k * 4096) → mapping s r va = mapping s₀ r va
  new : ∀ j, n ≤ j → j < k → ∃ pte, mapping s r (j * 4096) = some pte ∧
    New j (PTE_FLAGS pte) (s.page (PTE2PA pte / PGSIZE)) ∧ own₀ (PTE2PA pte) = .free

variable {New : Nat → Nat → Page → Prop}

theorem Grown.refl (h : Space own s r n) (hk : Kmem own s) (ht : Tables own s) :
    Grown New r n n own own s s :=
  ⟨.refl hk ht, h, Nat.le_refl _, fun _ _ _ => rfl, fun j hle hlt => absurd hle (by omega)⟩

section

variable (h : Grown New r n k own₀ own s₀ s)
include h

theorem Grown.tables (hg : Grows r own own' s s')
    (hsame : ∀ va < 2 ^ 39, lookup s' r va = lookup s r va)
    (huser : ∀ p j, own' p = .user r j → own p = .user r j) : Grown New r n k own₀ own' s₀ s' := by
  have hmax := TRAPFRAME_lt
  have hmap : ∀ va < 2 ^ 39, mapping s' r va = mapping s r va := fun va hva =>
    mapping_congr (hsame va hva)
  refine ⟨h.grows.trans hg, ?_, h.le, ?_, ?_⟩
  · refine h.space.congr (hg.kept h.space.root (by simp)) (fun va hva => hmap va (by omega)) ?_
    exact fun p j => ⟨huser p j, fun hp => hg.kept hp (by simp)⟩
  · intro va hva hout
    rw [hmap va hva, h.same va hva hout]
  intro j hle hlt
  have hj := h.space.lt hlt
  obtain ⟨pte, hpte, hnew, hfree⟩ := h.new j hle hlt
  refine ⟨pte, (hmap _ (by omega)).trans hpte, ?_, hfree⟩
  obtain ⟨pte', hpte', -, hown, -⟩ := h.space.mapped j hlt
  rw [hpte] at hpte'
  cases hpte'
  rwa [hg.frame _ (PTE2PA_aligned _) (by rw [hown]; simp) (by rw [hown]; simp)]

omit h in
theorem Grown.add (pte : Nat) (h : Grown New r n k own₀ own s₀ s) (hg : Grows r own own' s s')
    (hbound : (k + 1) * 4096 ≤ TRAPFRAME) (hfree : own (PTE2PA pte) = .free)
    (hpool : Pool (PTE2PA pte)) (hown : own' (PTE2PA pte) = .user r k) (hread : Flag pte PTE_R)
    (hv : Flag pte PTE_V) (hnew : New k (PTE_FLAGS pte) (s'.page (PTE2PA pte / PGSIZE)))
    (hmap : ∀ va < 2 ^ 39, lookup s' r va = if va / 4096 = k then pte else lookup s r va)
    (huser : ∀ p j, own' p = .user r j → own p = .user r j ∨ p = PTE2PA pte) :
    Grown New r n (k + 1) own₀ own' s₀ s' := by
  have hmax := TRAPFRAME_lt
  have hin : ∀ j < k + 1, j * 4096 < TRAPFRAME := fun j hj =>
    (Nat.mul_lt_mul_of_pos_right hj (by decide)).trans_le hbound
  have hlast : mapping s' r (k * 4096) = some pte := by
    have := hin k (by omega)
    refine mapping_eq_some.mpr ⟨hv, ?_⟩
    rw [hmap _ (by omega), if_pos (by omega)]
  have hother : ∀ va < 2 ^ 39, va / 4096 ≠ k → mapping s' r va = mapping s r va := by
    intro va hva hne
    refine mapping_congr ?_
    rw [hmap va hva, if_neg hne]
  have hkept : ∀ {p j}, own p = .user r j → own' p = .user r j := fun hp => hg.kept hp (by simp)
  refine ⟨h.grows.trans hg, ⟨hg.kept h.space.root (by simp), hbound, ?_, ?_, ?_⟩, ?_, ?_, ?_⟩
  · intro j hj
    have := hin j hj
    by_cases hjk : j = k
    · subst hjk
      exact ⟨pte, hlast, hread, hown, hpool⟩
    · obtain ⟨pte', hpte', hread', hown', hpool'⟩ := h.space.mapped j (by omega)
      exact ⟨pte', (hother _ (by omega) (by omega)).trans hpte', hread', hkept hown', hpool'⟩
  · intro p j hp
    rcases huser p j hp with hp' | rfl
    · obtain ⟨hj, pte', hpte', hpa⟩ := h.space.owned p j hp'
      have := hin j (by omega)
      exact ⟨by omega, pte', (hother _ (by omega) (by omega)).trans hpte', hpa⟩
    · rw [hown] at hp
      cases hp
      exact ⟨by omega, pte, hlast, rfl⟩
  · intro j hj hlt
    rw [hother _ (by omega) (by omega)]
    exact h.space.clear j (by omega) hlt
  · have := h.le
    omega
  · intro va hva hout
    have hle : n * 4096 ≤ k * 4096 := Nat.mul_le_mul_right _ h.le
    have hlt : k * 4096 < (k + 1) * 4096 := Nat.mul_lt_mul_of_pos_right (by omega) (by decide)
    rw [hother va hva, h.same va hva]
    · rintro ⟨hlo, hhi⟩
      exact hout ⟨hlo, hhi.trans hlt⟩
    · rintro rfl
      exact hout ⟨hle.trans (div_mul_le_self ..), lt_mul_of_div_lt (lt_succ_self _) (by decide)⟩
  intro j hle hj
  by_cases hjk : j = k
  · subst hjk
    refine ⟨pte, hlast, hnew, ?_⟩
    rcases h.grows.owner (PTE2PA pte) with hsame | ⟨hfree', -⟩
    · rw [← hsame, hfree]
    · exact hfree'
  have := hin j hj
  obtain ⟨pte', hpte', hnew', hfree'⟩ := h.new j hle (by omega)
  obtain ⟨pte'', hpte'', -, hown'', -⟩ := h.space.mapped j (by omega)
  rw [hpte'] at hpte''
  cases hpte''
  refine ⟨pte', (hother _ (by omega) (by omega)).trans hpte', ?_, hfree'⟩
  rwa [hg.frame _ (PTE2PA_aligned _) (by rw [hown'']; simp) (by rw [hown'']; simp)]

theorem Grown.undo (h0 : Space own₀ s₀ r n) (hs : Shrinks r n k true own own' s s')
    (hspace : Space own' s' r n) : Grown New r n n own₀ own' s₀ s' := by
  refine ⟨⟨hs.kmem, hs.tables, ?_, ?_⟩, hspace, Nat.le_refl _, ?_, ?_⟩
  · intro p
    rcases hs.owner p with hsame | ⟨-, hfree, j, hj, hle, hlt⟩
    · rw [hsame]
      exact h.grows.owner p
    left
    obtain ⟨-, pte, hpte, rfl⟩ := h.space.owned p j hj
    obtain ⟨pte', hpte', -, hfree'⟩ := h.new j hle hlt
    rw [hpte] at hpte'
    cases hpte'
    rw [hfree, hfree']
  · intro q hq hfree htable
    have hown := h.grows.kept (p := q) rfl hfree
    rw [hs.frame q hq ?_ (by rwa [hown]), h.grows.frame q hq hfree htable]
    rcases hs.owner q with hsame | ⟨-, -, j, hj, hle, hlt⟩
    · exact hsame
    · obtain ⟨-, pte, hpte, rfl⟩ := h.space.owned q j hj
      obtain ⟨pte', hpte', -, hfree'⟩ := h.new j hle hlt
      rw [hpte] at hpte'
      cases hpte'
      exact absurd hfree' hfree
  · intro va hva _
    by_cases hin : n * 4096 ≤ va ∧ va < k * 4096
    · rw [h0.mapping_none hin.1 (hin.2.trans_le h.space.bound), mapping_eq_none, hs.lookup va hva, if_pos hin]
      exact not_flag_zero _
    · rw [← h.same va hva hin]
      refine mapping_congr ?_
      rw [hs.lookup va hva, if_neg hin]
  · intro j hle hlt
    omega

/-- `mappages` with the next page, which `kalloc` has given: it is added, or it can be freed. -/
theorem Grown.mappages {perm : Nat} (hfree : own mem = .free) (hpool : Pool mem)
    (hk : Kmem (update own mem .held) s') (hframe : Mem.Only mem s s')
    (hperm : perm < 1024) (hread : Flag perm PTE_R)
    (hnew : New k (perm ||| PTE_V) (s'.page (mem / PGSIZE))) :
    Wp E (mappages r (k * 4096) PGSIZE mem perm) s' fun done s2 =>
      if done = true then ∃ own2, Grown New r n (k + 1) own₀ own2 s₀ s2 ∧ own2 mem = .user r k
      else ∃ own2, Kmem own2 s2 ∧ own2 mem = .held ∧ ∀ s3, Kmem (update own2 mem .free) s3 →
        Mem.Only mem s2 s3 → Grown New r n k own₀ (update own2 mem .free) s₀ s3 := by
  have hcount := h.space.le hfree hpool
  have hbound : (k + 1) * 4096 ≤ TRAPFRAME := (Nat.mul_le_mul_right 4096 hcount).trans (by decide)
  have hva : k * 4096 + 1 * 4096 ≤ MAXVA := by
    have := TRAPFRAME_le
    omega
  have hnot : ∀ {q r' path}, own q = .table r' path → q ≠ mem := by
    rintro q r' path hq rfl
    rw [hq] at hfree
    cases hfree
  have ht : Tables (update own mem .held) s' := by
    have ht := h.grows.tables
    have ht' : Tables own s' := ht.congr fun q r' path hq => hframe q (ht.pool hq).1 (hnot hq)
    refine ht'.updated ?_ (by simp)
    rw [hfree]
    simp
  have hr : update own mem .held r = .table r [] := by
    rw [update_of_ne (hnot h.space.root), h.space.root]
  have hlookup : ∀ va, lookup s' r va = lookup s r va := fun va =>
    h.grows.tables.lookupFrom_congr h.space.root rfl fun q path hq =>
      hframe q (h.grows.tables.pool hq).1 (hnot hq)
  have hclear : ∀ va, k * 4096 ≤ va → va < k * 4096 + 1 * 4096 → ¬ Flag (lookup s' r va) PTE_V := by
    intro va hle hlt
    rw [hlookup, ← mapping_eq_none, ← h.space.clear k (Nat.le_refl _) (by omega)]
    refine mapping_congr (lookup_page (by omega) (by omega) ?_)
    rw [PGSIZE]
    omega
  have hpa : mem + 1 * 4096 ≤ 2 ^ 64 := by
    have hlt : PHYSTOP < 2 ^ 63 := by decide
    have := hpool.2.2
    omega
  rw [Vm.mappages, if_neg (by rw [PGSIZE]; omega), if_neg (by decide), if_neg (by decide)]
  refine (mappagesLoop_spec hk ht hr (by omega) hva hpa hperm hclear).mono ?_
  rintro done s2 ⟨own2, m, hg, huser, hm, hdone, hmap⟩
  have hheld : own2 mem = .held := hg.kept (update_self ..) (by simp)
  -- in terms of the state before `kalloc`
  have hown : ∀ p, p ≠ mem → own2 p = own p ∨ own p = .free ∧ ∃ path, own2 p = .table r path := by
    intro p hp
    rcases hg.owner p with hsame | ⟨hfree', ⟨path, hpath⟩ | ⟨j, hj⟩⟩
    · rw [update_of_ne hp] at hsame
      exact .inl hsame
    · rw [update_of_ne hp] at hfree'
      exact .inr ⟨hfree', path, hpath⟩
    · rw [huser p j hj] at hfree'
      cases hfree'
  have hpages : ∀ q, q % PGSIZE = 0 → own q ≠ .free → (∀ path, own q ≠ .table r path) →
      s2.page (q / PGSIZE) = s.page (q / PGSIZE) := by
    intro q hq hne htable
    have hqm : q ≠ mem := by
      rintro rfl
      exact hne hfree
    rw [hg.frame q hq, hframe q hq hqm]
    all_goals rwa [update_of_ne hqm]
  have huser' : ∀ p j, p ≠ mem → own2 p = .user r j → own p = .user r j := by
    intro p j hp hj
    have := huser p j hj
    rwa [update_of_ne hp] at this
  cases done with
  | true =>
    rw [if_pos rfl]
    rw [hdone.mp rfl] at hmap
    have hal : mem % PGSIZE = 0 := hpool.1
    have hpte : PTE2PA (PA2PTE mem ||| perm ||| PTE_V) = mem := PTE2PA_entry hpool.lt hal hperm
    have hk2 : Kmem (update own2 mem (.user r k)) s2 :=
      hg.kmem.reown (by rw [hheld]; simp) (by simp)
    have ht2 : Tables (update own2 mem (.user r k)) s2 :=
      hg.tables.updated (by rw [hheld]; simp) (by simp)
    have hgrows : Grows r own (update own2 mem (.user r k)) s s2 := by
      refine ⟨hk2, ht2, fun p => ?_, hpages⟩
      by_cases hp : p = mem
      · subst hp
        exact .inr ⟨hfree, .inr ⟨k, update_self ..⟩⟩
      · rw [update_of_ne hp]
        rcases hown p hp with hsame | ⟨hf, hpath⟩
        · exact .inl hsame
        · exact .inr ⟨hf, .inl hpath⟩
    refine ⟨_, Grown.add (PA2PTE mem ||| perm ||| PTE_V) h hgrows hbound ?_ ?_ ?_ ?_ flag_valid
      ?_ ?_ ?_, update_self ..⟩
    · rwa [hpte]
    · rwa [hpte]
    · rw [hpte, update_self]
    · exact (flag_entry (k := 1) hperm (by decide) (by decide)).mpr hread
    · have hpage : s2.page (mem / PGSIZE) = s'.page (mem / PGSIZE) :=
        hg.frame mem hal (by simp) (by simp)
      rwa [PTE_FLAGS_entry hperm, hpte, hpage]
    · intro va hlt
      rw [hmap va hlt, hlookup]
      by_cases hin : va / 4096 = k
      · have hzero : (va - k * 4096) / 4096 * 4096 = 0 := by omega
        rw [if_pos hin, if_pos (by omega), hzero, Nat.add_zero]
      · rw [if_neg hin, if_neg (by omega)]
    intro p j hj
    rw [hpte]
    by_cases hp : p = mem
    · exact .inr hp
    · rw [update_of_ne hp] at hj
      exact .inl (huser' p j hp hj)
  | false =>
    have hm0 : m = 0 := by
      have : m ≠ 1 := fun h1 => absurd (hdone.mpr h1) (by simp)
      omega
    rw [if_neg (by simp)]
    refine ⟨own2, hg.kmem, hheld, fun s3 hk3 hframe3 => ?_⟩
    have hnot2 : ∀ {q r' path}, own2 q = .table r' path → q ≠ mem := by
      rintro q r' path hq rfl
      rw [hq] at hheld
      cases hheld
    have ht3 : Tables own2 s3 := hg.tables.congr fun q r' path hq =>
      hframe3 q (hg.tables.pool hq).1 (hnot2 hq)
    have hlookup3 : ∀ va, lookup s3 r va = lookup s2 r va := fun va =>
      hg.tables.lookupFrom_congr (hg.kept hr (by simp)) rfl fun q path hq =>
        hframe3 q (hg.tables.pool hq).1 (hnot2 hq)
    refine h.tables ⟨hk3, ht3.updated (by rw [hheld]; simp) (by simp), fun p => ?_, ?_⟩ ?_ ?_
    · by_cases hp : p = mem
      · subst hp
        rw [update_self, hfree]
        exact .inl rfl
      · rw [update_of_ne hp]
        rcases hown p hp with hsame | ⟨hf, hpath⟩
        · exact .inl hsame
        · exact .inr ⟨hf, .inl hpath⟩
    · intro q hq hne htable
      have hqm : q ≠ mem := by
        rintro rfl
        exact hne hfree
      rw [hframe3 q hq hqm, hpages q hq hne htable]
    · intro va hlt
      rw [hlookup3, hmap va hlt, if_neg (by omega), hlookup]
    intro p j hj
    by_cases hp : p = mem
    · subst hp
      rw [update_self] at hj
      cases hj
    · rw [update_of_ne hp] at hj
      exact huser' p j hp hj

theorem Grown.uvmdealloc (h0 : Space own₀ s₀ r n) :
    Wp E (uvmdealloc r (k * 4096) (n * 4096)) s fun _ s' =>
      ∃ own', Grown New r n n own₀ own' s₀ s' := by
  have hspace : Space own s r (pages (k * 4096)) := by
    rw [pages_mul]
    exact h.space
  refine (uvmdealloc_spec hspace h.grows.kmem h.grows.tables (Nat.mul_le_mul_right _ h.le)).mono ?_
  rintro _ s' ⟨-, own', hs, hspace'⟩
  rw [pages_mul, pages_mul] at hs
  rw [pages_mul] at hspace'
  exact ⟨own', h.undo h0 hs hspace'⟩

end

/-- `uvmunmap` of all pages, when there were none at first. -/
theorem Grown.unmap (h : Grown New r 0 k own₀ own s₀ s) (h0 : Space own₀ s₀ r 0) :
    Wp E (uvmunmap r 0 k true) s fun _ s' => ∃ own', Grown New r 0 0 own₀ own' s₀ s' := by
  have hzero : 0 = 0 * 4096 := rfl
  have hcount : k = k - 0 := rfl
  rw [hzero, hcount]
  refine (h.space.unmap h.grows.kmem h.grows.tables (Nat.zero_le _)).mono ?_
  rintro _ s' ⟨own', hs, hspace⟩
  exact ⟨own', h.undo h0 hs hspace⟩

def Zeroed (xperm : Nat) (_ flags : Nat) (pg : Page) : Prop :=
  flags = PTE_R ||| PTE_U ||| xperm ||| PTE_V ∧ pg = fun _ => 0

/-- The loop of `uvmalloc` adds all its pages or takes away those it has added. -/
theorem uvmallocLoop_spec {xperm m : Nat} (h0 : Space own₀ s₀ r n) (hx : xperm < 1024)
    (h : Grown (Zeroed xperm) r n k own₀ own s₀ s) :
    Wp E (uvmallocLoop r (n * 4096) xperm m (k * 4096)) s fun done s' =>
      ∃ own', Grown (Zeroed xperm) r n (if done = true then k + m else n) own₀ own' s₀ s' := by
  induction m generalizing own s k with
  | zero => exact ⟨own, h⟩
  | succ m ih =>
    have hperm : PTE_R ||| PTE_U ||| xperm < 1024 := or_lt_two_pow (n := 10) (by decide) hx
    have hread : Flag (PTE_R ||| PTE_U ||| xperm) PTE_R := by
      have : Flag (PTE_R ||| PTE_U ||| xperm) (2 ^ 1) := by
        rw [flag_two_pow, testBit_or, show (PTE_R ||| PTE_U).testBit 1 = true by decide,
          Bool.true_or]
      exact this
    rw [uvmallocLoop]
    refine (kalloc_spec h.grows.kmem).bind ?_
    rintro mem s1 (⟨rfl, hpage, hk1⟩ | ⟨hne, hfree, hpool, hk1, hframe⟩)
    · have h1 := h.tables (.of_page hk1 h.grows.tables hpage)
        (fun va _ => h.grows.tables.lookupFrom_congr h.space.root rfl fun _ _ _ => congrFun hpage _)
        fun _ _ hp => hp
      simp only [if_true, wp_bind, wp_pure]
      exact (h1.uvmdealloc h0).mono fun _ _ hs => hs
    rw [if_neg hne]
    simp only [wp_bind, wp_modify]
    refine (h.mappages hfree hpool (hk1.setPage hpool.1 (by simp))
      (.setPage hpool.1 hframe) hperm hread ⟨rfl, Mem.setPage_self⟩).mono ?_
    intro done s3 hdone
    cases done with
    | true =>
      obtain ⟨own3, h3, -⟩ := hdone
      simp only [Bool.true_eq_false, if_false]
      rw [show k * 4096 + PGSIZE = (k + 1) * 4096 by rw [PGSIZE]; omega]
      refine (ih h3).mono ?_
      rintro done s4 ⟨own4, h4⟩
      rw [show k + 1 + m = k + (m + 1) by omega] at h4
      exact ⟨own4, h4⟩
    | false =>
      obtain ⟨own3, hk3, hheld, hback⟩ := hdone
      simp only [if_true, wp_bind, wp_pure]
      refine (kfree_spec hk3 hpool (by rw [hheld]; simp)).mono ?_
      rintro _ s4 ⟨hk4, hframe4⟩
      exact ((hback s4 hk4 hframe4).uvmdealloc h0).mono fun _ _ hs => hs

/-- `uvmalloc` adds all pages or none. -/
theorem uvmalloc_spec {oldsz newsz xperm : Nat} (h : Space own s r (pages oldsz)) (hk : Kmem own s)
    (ht : Tables own s) (hle : oldsz ≤ newsz) (hx : xperm < 1024) :
    Wp E (uvmalloc r oldsz newsz xperm) s fun res s' => ∃ own',
      res = newsz ∧ Grown (Zeroed xperm) r (pages oldsz) (pages newsz) own own' s s' ∨
      res = 0 ∧ Grown (Zeroed xperm) r (pages oldsz) (pages oldsz) own own' s s' := by
  have hbound := h.bound
  have hmax := TRAPFRAME_lt
  have hsz : oldsz ≤ pages oldsz * 4096 := by
    rw [pages]
    omega
  have hpages : pages oldsz ≤ pages newsz := Nat.div_le_div_right (by omega)
  have hcount : (newsz - pages oldsz * 4096 + PGSIZE - 1) / PGSIZE = pages newsz - pages oldsz := by
    rw [pages, pages, PGSIZE]
    omega
  rw [uvmalloc, if_neg (by omega), PGROUNDUP_pages (by omega)]
  simp only [hcount, wp_bind, wp_pure]
  refine (uvmallocLoop_spec h hx (.refl h hk ht)).mono ?_
  rintro done s' ⟨own', hg⟩
  cases done with
  | true =>
    rw [if_pos rfl, Nat.add_sub_cancel' hpages] at hg
    exact ⟨own', .inl ⟨rfl, hg⟩⟩
  | false => exact ⟨own', .inr ⟨rfl, hg⟩⟩

/-- A page that is free or a page-table page of the tree. -/
def Spare (own : Nat → Owner) (r p : Nat) : Prop := own p = .free ∨ ∃ path, own p = .table r path

theorem Grown.spare_iff (h : Grown New r n n own₀ own s₀ s) (h0 : Space own₀ s₀ r n) (p : Nat) :
    Spare own r p ↔ Spare own₀ r p := by
  rcases h.grows.owner p with hsame | ⟨hfree, hpath | ⟨j, hj⟩⟩
  · rw [Spare, Spare, hsame]
  · exact iff_of_true (.inr hpath) (.inl hfree)
  obtain ⟨hlt, pte, hpte, hpa⟩ := h.space.owned p j hj
  obtain ⟨pte', hpte', -, hown, -⟩ := h0.mapped j hlt
  have hmax := TRAPFRAME_lt
  have := h0.lt hlt
  rw [← h.same _ (by omega) (by omega), hpte] at hpte'
  cases hpte'
  rw [hpa, hfree] at hown
  cases hown

theorem Grown.contents {va pte : Nat} (h : Grown New r n k own₀ own s₀ s) (h0 : Space own₀ s₀ r n)
    (hva : va < n * 4096) (hpte : mapping s₀ r va = some pte) :
    mapping s r va = some pte ∧ s.page (PTE2PA pte / PGSIZE) = s₀.page (PTE2PA pte / PGSIZE) := by
  have hmax := TRAPFRAME_lt
  have hbound := h0.bound
  obtain ⟨pte', hpte', -, hown, -⟩ := h0.mapping_some hva
  rw [hpte] at hpte'
  cases hpte'
  constructor
  · rw [h.same va (by omega) (by omega), hpte]
  · exact h.grows.frame _ (PTE2PA_aligned _) (by rw [hown]; simp) (by rw [hown]; simp)

/-- `uvmalloc` adds the pages up to `newsz`, zero-filled and with the permissions asked for, or it
returns 0 and the user's mappings and their contents are as before, as is the set of pages that are
free or in the tree. `uvmdealloc` takes the pages away again and frees them. -/
theorem uvmalloc_all_or_nothing {oldsz newsz xperm : Nat} (hk : Kmem own s) (ht : Tables own s)
    (h : Space own s r (pages oldsz)) (hle : oldsz ≤ newsz) (hlt : newsz < TRAPFRAME)
    (hx : xperm < 1024) :
    ∃ res s' own', uvmalloc r oldsz newsz xperm s = .ok (res, s') ∧ Kmem own' s' ∧ Tables own' s' ∧
      (res = 0 ∨ res = newsz) ∧
      (∀ va < PGROUNDUP oldsz, ∀ pte, mapping s r va = some pte → mapping s' r va = some pte ∧
        s'.page (PTE2PA pte / PGSIZE) = s.page (PTE2PA pte / PGSIZE)) ∧
      (res = 0 → (∀ va < MAXVA, mapping s' r va = mapping s r va) ∧
        ∀ p, Spare own' r p ↔ Spare own r p) ∧
      (res = newsz →
        (∀ va < TRAPFRAME, (mapping s' r va).isSome ↔ va < PGROUNDUP newsz) ∧
        (∀ va, PGROUNDUP oldsz ≤ va → va < PGROUNDUP newsz → ∃ pte, mapping s' r va = some pte ∧
          PTE_FLAGS pte = PTE_R ||| PTE_U ||| xperm ||| PTE_V ∧
          s'.page (PTE2PA pte / PGSIZE) = (fun _ => 0) ∧ own (PTE2PA pte) = .free) ∧
        (∀ va va' pte pte', va < PGROUNDUP newsz → va' < PGROUNDUP newsz →
          mapping s' r va = some pte → mapping s' r va' = some pte' → PTE2PA pte = PTE2PA pte' →
          va / PGSIZE = va' / PGSIZE) ∧
        ∃ s'' own'', uvmdealloc r newsz oldsz s' = .ok (oldsz, s'') ∧ Kmem own'' s'' ∧
          (∀ va < MAXVA, mapping s'' r va = mapping s r va) ∧
          (∀ va < PGROUNDUP oldsz, ∀ pte, mapping s r va = some pte →
            s''.page (PTE2PA pte / PGSIZE) = s.page (PTE2PA pte / PGSIZE)) ∧
          ∀ va pte, PGROUNDUP oldsz ≤ va → va < PGROUNDUP newsz → mapping s' r va = some pte →
            own'' (PTE2PA pte) = .free) := by
  have hmax := TRAPFRAME_lt
  have hmaxva : MAXVA < 2 ^ 39 := MAXVA_lt
  have hsz : newsz ≤ pages newsz * 4096 ∧ pages newsz * 4096 < newsz + 4096 := by
    rw [pages]
    omega
  rw [PGROUNDUP_pages (by omega), PGROUNDUP_pages (by omega)]
  obtain ⟨res, s', hrun, own', hres⟩ := (uvmalloc_spec (E := fun _ => False) h hk ht hle hx).total
  obtain ⟨m, hm, hg⟩ : ∃ m, (res = newsz ∧ m = pages newsz ∨ res = 0 ∧ m = pages oldsz) ∧
      Grown (Zeroed xperm) r (pages oldsz) m own own' s s' := by
    rcases hres with ⟨rfl, hg⟩ | ⟨rfl, hg⟩
    · exact ⟨_, .inl ⟨rfl, rfl⟩, hg⟩
    · exact ⟨_, .inr ⟨rfl, rfl⟩, hg⟩
  -- with nothing to add both results are the same
  have hzero : newsz = 0 → pages oldsz = pages newsz := by
    rintro rfl
    rw [Nat.le_zero.mp hle]
  refine ⟨res, s', own', hrun, hg.grows.kmem, hg.grows.tables, ?_, ?_, ?_, ?_⟩
  · rcases hm with ⟨hres, -⟩ | ⟨hres, -⟩
    · exact .inr hres
    · exact .inl hres
  · exact fun va hva pte hpte => hg.contents h hva hpte
  · intro h0
    obtain rfl : m = pages oldsz := by
      rcases hm with ⟨hres, hm⟩ | ⟨-, hm⟩
      · rw [hm, hzero (hres.symm.trans h0)]
      · exact hm
    exact ⟨fun va hva => hg.same va (by omega) (by omega), hg.spare_iff h⟩
  intro hnew
  obtain rfl : m = pages newsz := by
    rcases hm with ⟨-, hm⟩ | ⟨hres, hm⟩
    · exact hm
    · rw [hm, hzero (hnew.symm.trans hres)]
  have hbound := hg.space.bound
  have hle' : pages oldsz * 4096 ≤ pages newsz * 4096 := Nat.mul_le_mul_right _ hg.le
  have hadded : ∀ va, pages oldsz * 4096 ≤ va → va < pages newsz * 4096 → ∃ pte,
      mapping s' r va = some pte ∧ Zeroed xperm (va / 4096) (PTE_FLAGS pte)
        (s'.page (PTE2PA pte / PGSIZE)) ∧ own (PTE2PA pte) = .free := by
    intro va hlo hhi
    rw [mapping_page (by omega)]
    exact hg.new (va / 4096) (by omega) (by omega)
  refine ⟨fun va hva => hg.space.isSome_iff hva, ?_, ?_, ?_⟩
  · intro va hlo hhi
    obtain ⟨pte, hpte, ⟨hflags, hpage⟩, hfree⟩ := hadded va hlo hhi
    exact ⟨pte, hpte, hflags, hpage, hfree⟩
  · intro va va' pte pte' hva hva' hpte hpte' heq
    exact hg.space.inj hva hva' hpte hpte' heq
  obtain ⟨res', s'', hrun', rfl, own'', hs, hspace⟩ := (uvmdealloc_spec (E := fun _ => False)
    hg.space hg.grows.kmem hg.grows.tables hle).total
  have hback := hg.undo h hs hspace
  refine ⟨s'', own'', hrun', hs.kmem, fun va hva => hback.same va (by omega) (by omega),
    fun va hva pte hpte => (hback.contents h hva hpte).2, ?_⟩
  intro va pte hlo hhi hpte
  have hfreed := hs.freed rfl (va / 4096) (by omega) (by omega)
  rw [mapping_page (by omega)] at hpte
  rwa [(mapping_eq_some.mp hpte).2] at hfreed

end

/-- Creates a page table and gives it some memory. -/
def createAlloc [Machine] (newsz xperm : Nat) : MemM (Nat × Nat) := do
  kinit
  let r ← uvmcreate
  let res ← uvmalloc r 0 newsz xperm
  pure (r, res)

theorem createAlloc_parts (newsz xperm r : Nat) (hr : r ≠ 0) (hnew : newsz ≠ 0) (hx : xperm < 1024)
    (h : (@createAlloc smallMachine newsz xperm blank).toOption.map Prod.fst = some (r, newsz)) :
    ∃ own s own' s', @Sv39 smallMachine own s r ∧ (∀ va, lookup s r va = 0) ∧
      @Space smallMachine own s r (pages 0) ∧
      @uvmalloc smallMachine r 0 newsz xperm s = .ok (newsz, s') ∧
      @Grown smallMachine (Zeroed xperm) r (pages 0) (pages newsz) own own' s s' := by
  let := smallMachine
  obtain ⟨t, hok⟩ := ok_of_toOption h
  obtain ⟨⟨⟩, s₀, hinit, hok⟩ := bind_ok hok
  obtain ⟨r, s, hcreate, hok⟩ := bind_ok hok
  obtain ⟨res, s', halloc, hok⟩ := bind_ok hok
  cases hok
  obtain ⟨own, hwf, hempty, huser⟩ := sv39_of_uvmcreate hinit hcreate hr
  have hspace : Space own s r (pages 0) := by
    refine ⟨hwf.root, by decide, ?_, ?_, ?_⟩
    · intro k hk
      exact absurd hk (Nat.not_lt_zero k)
    · intro p k hp
      exact absurd hp (huser p _ k)
    · intro k _ _
      rw [mapping_eq_none, hempty]
      exact not_flag_zero _
  obtain ⟨own', ⟨-, hg⟩ | ⟨hres, -⟩⟩ := (uvmalloc_spec (E := fun _ => False) hspace hwf.kmem
    hwf.tables (Nat.zero_le _) hx).result halloc
  · exact ⟨own, s, own', _, hwf, hempty, hspace, halloc, hg⟩
  · exact absurd hres hnew

/-- Two pages are added to an empty page table. -/
theorem uvmalloc_all_or_nothing_two : ∃ s s' r,
    @uvmalloc smallMachine r 0 5000 PTE_W s = .ok (5000, s') ∧
    (∀ va, lookup s r va = 0) ∧ (mapping s' r 8191).isSome ∧ mapping s' r 8192 = none := by
  obtain ⟨own, s, -, s', hwf, hempty, hspace, halloc, -⟩ := createAlloc_parts 5000 PTE_W
    (PHYSTOP - PGSIZE) (by decide) (by decide) (by decide) (by decide +kernel)
  let := smallMachine
  have hsz : 0 ≤ 5000 ∧ 5000 < TRAPFRAME ∧ PTE_W < 1024 := by decide
  obtain ⟨res, s₁, own', hrun, -, -, -, -, -, hnew⟩ :=
    uvmalloc_all_or_nothing hwf.kmem hwf.tables hspace hsz.1 hsz.2.1 hsz.2.2
  rw [halloc] at hrun
  cases hrun
  obtain ⟨hexact, -⟩ := hnew rfl
  have hpages : 8191 < TRAPFRAME ∧ 8192 < TRAPFRAME ∧ PGROUNDUP 5000 = 8192 := by decide
  rw [hpages.2.2] at hexact
  refine ⟨s, _, _, halloc, hempty, (hexact 8191 hpages.1).mpr (by omega), ?_⟩
  rw [← Option.not_isSome_iff_eq_none, hexact 8192 hpages.2.1]
  omega

end Xv6.Vm
