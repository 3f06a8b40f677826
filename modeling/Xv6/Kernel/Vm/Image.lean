import Xv6.Kernel.Vm.Free

namespace Xv6.Vm

open ByteCodec Hoare Function

section Model

variable [Machine]

/-- `proc_pagetable` of a process with the given trapframe. -/
def procPagetable (trapframe : Nat) : MemM Nat := do
  let pagetable ← uvmcreate
  if pagetable = 0 then pure 0
  else do
    let mapped ← mappages pagetable TRAMPOLINE PGSIZE Machine.trampoline (PTE_R ||| PTE_X)
    if mapped = false then do
      uvmfree pagetable 0
      pure 0
    else do
      let mapped ← mappages pagetable TRAPFRAME PGSIZE trapframe (PTE_R ||| PTE_W)
      if mapped = false then do
        uvmunmap pagetable TRAMPOLINE 1 false
        uvmfree pagetable 0
        pure 0
      else pure pagetable

def procFreepagetable (pagetable sz : Nat) : MemM Unit := do
  uvmunmap pagetable TRAMPOLINE 1 false
  uvmunmap pagetable TRAPFRAME 1 false
  uvmfree pagetable sz

end Model

variable [Machine] {own own' : Nat → Owner} {s s' : Mem} {r n k p tf va : Nat} {M : Owner → Prop}
  {New : Nat → Nat → Page → Prop} {E : Stop → Prop}

/-- Each page has one use, and the user's pages belong to trees. -/
structure Heap (own : Nat → Owner) (s : Mem) : Prop where
  kmem : Kmem own s
  tables : Tables own s
  user : ∀ {p r k}, own p = .user r k → own r = .table r []

theorem Heap.fresh (h : Heap own s) (hr : own r = .free) (hp : Owner.Tree r (own p)) :
    own p = .free := by
  generalize ho : own p = o at hp
  cases hp with
  | free => rfl
  | table path =>
    obtain ⟨q, hq⟩ := h.tables.above (show own p = .table r ([] ++ path) from ho)
    rw [h.tables.root hq, hr] at hq
    cases hq
  | user k =>
    have := h.user ho
    rw [hr] at this
    cases this

/-- Only pages with a use in `M` were written. -/
structure Touches (M : Owner → Prop) (own : Nat → Owner) (s s' : Mem) : Prop where
  freelist : s'.freelist = s.freelist
  page : ∀ q, q % PGSIZE = 0 → ¬ M (own q) → s'.page (q / PGSIZE) = s.page (q / PGSIZE)

section

omit [Machine]

theorem Touches.refl : Touches M own s s := ⟨rfl, fun _ _ _ => rfl⟩

theorem Touches.trans {s'' : Mem} (h : Touches M own s s') (h' : Touches M own s' s'') :
    Touches M own s s'' :=
  ⟨h'.freelist.trans h.freelist, fun q hq hm => (h'.page q hq hm).trans (h.page q hq hm)⟩

theorem Touches.isLocal (h : Touches M own s s') : Local M own own s s' :=
  ⟨fun _ => .inl rfl, h.page⟩

end

/-- The uses of pages that the kernel has no structures of its own in. -/
def Owner.Data (o : Owner) : Prop := o ≠ .free ∧ ∀ r path, o ≠ .table r path

theorem Heap.touches (h : Heap own s) (ht : Touches M own s s') (hM : ∀ o, M o → o.Data) :
    Heap own s' := by
  refine ⟨h.kmem.congr (fun _ => Iff.rfl) ht.freelist fun p hp => ?_,
    h.tables.congr fun q r path hq => ?_, h.user⟩
  · exact ht.page p (h.kmem.pool p hp).1 fun hm => (hM _ hm).1 hp
  · exact ht.page q (h.tables.pool hq).1 fun hm => (hM _ hm).2 r path hq

theorem Touches.mapping (ht : Touches M own s s') (h : Tables own s) (hM : ∀ o, M o → o.Data)
    (hr : own r = .table r []) (va : Nat) : mapping s' r va = mapping s r va :=
  ht.isLocal.mapping h hr (fun path hm => (hM _ hm).2 r path rfl) va

/-- The entry for a page with the given flags. -/
def entry (pa perm : Nat) : Nat := PA2PTE pa ||| perm ||| PTE_V

/-- The address space of a process: the pages of the user, the trampoline and the trapframe. -/
structure Image (own : Nat → Owner) (s : Mem) (r n tf : Nat) : Prop where
  space : Space own s r n
  trampoline : mapping s r TRAMPOLINE = some (entry Machine.trampoline (PTE_R ||| PTE_X))
  trapframe : mapping s r TRAPFRAME = some (entry tf (PTE_R ||| PTE_W))
  above : ∀ va, MAXVA ≤ va → va < 2 ^ 39 → mapping s r va = none

section

variable (h : Image own s r n tf)
include h

theorem Image.other (ht : Tables own s) (hl : Local M own own' s s')
    (htable : ∀ path, ¬ M (.table r path)) (huser : ∀ k, ¬ M (.user r k)) :
    Image own' s' r n tf := by
  have hsame := hl.mapping ht h.space.root htable
  exact ⟨h.space.other ht hl htable huser, (hsame _).trans h.trampoline,
    (hsame _).trans h.trapframe, fun va hle hlt => (hsame va).trans (h.above va hle hlt)⟩

theorem Image.touches (ht : Touches M own s s') (htab : Tables own s) (hM : ∀ o, M o → o.Data) :
    Image own s' r n tf := by
  have hsame := ht.mapping htab hM h.space.root
  exact ⟨h.space.congr h.space.root (fun va _ => hsame va) fun _ _ => Iff.rfl,
    (hsame _).trans h.trampoline, (hsame _).trans h.trapframe,
    fun va hle hlt => (hsame va).trans (h.above va hle hlt)⟩

theorem Image.grown (hg : Grown New r n k own own' s s') : Image own' s' r k tf := by
  have hbound := hg.space.bound
  have hlast := top_pages
  refine ⟨hg.space, ?_, ?_, fun va hle hlt => ?_⟩
  · rw [hg.same _ (by omega) (by omega), h.trampoline]
  · rw [hg.same _ (by omega) (by omega), h.trapframe]
  · rw [hg.same va hlt (by omega), h.above va hle hlt]

omit h in
theorem Heap.grown (h : Heap own s) (hg : Grown New r n k own own' s s') : Heap own' s' := by
  refine ⟨hg.grows.kmem, hg.grows.tables, fun {p r' j} hp => ?_⟩
  rcases hg.grows.owner p with hsame | ⟨-, ⟨path, hpath⟩ | ⟨j', hj'⟩⟩
  · rw [hsame] at hp
    exact hg.grows.kept (h.user hp) (by simp)
  · rw [hpath] at hp
    cases hp
  · rw [hj'] at hp
    cases hp
    exact hg.space.root

theorem Image.shrink {lo : Nat} (hlo : lo ≤ n) (hs : Shrinks r lo n true own own' s s') :
    Image own' s' r lo tf := by
  have hbound := h.space.bound
  have hlast := top_pages
  have hsame : ∀ va < 2 ^ 39, TRAPFRAME ≤ va → mapping s' r va = mapping s r va := by
    intro va hva hle
    refine mapping_congr ?_
    rw [hs.lookup va hva, if_neg (by omega)]
  refine ⟨h.space.shrink hlo hs, ?_, ?_, fun va hle hlt => ?_⟩
  · rw [hsame _ (by omega) (by omega), h.trampoline]
  · rw [hsame _ (by omega) (by omega), h.trapframe]
  · rw [hsame va hlt (by omega), h.above va hle hlt]

end

theorem Heap.shrinks {lo hi : Nat} {doFree : Bool} (h : Heap own s)
    (hs : Shrinks r lo hi doFree own own' s s') : Heap own' s' := by
  refine ⟨hs.kmem, hs.tables, fun {p r' j} hp => ?_⟩
  rcases hs.owner p with hsame | ⟨-, hfree, -⟩
  · rw [hsame] at hp
    exact hs.kept (h.user hp) (by simp)
  · rw [hfree] at hp
    cases hp

theorem Heap.gone (h : Heap own s) (hg : Gone r own own' s s') : Heap own' s' := by
  refine ⟨hg.kmem, hg.tables, fun {p r' j} hp => ?_⟩
  have hne : r' ≠ r := by
    rintro rfl
    exact hg.none p (by rw [hp]; simp) (hp ▸ .user j)
  have hp' : own p = .user r' j := (hg.loc.kept fun htree => by
    cases htree
    exact hne rfl).mp hp
  exact (hg.loc.kept fun htree => by
    cases htree
    exact hne rfl).mpr (h.user hp')

theorem unmap_one (hk : Kmem own s) (ht : Tables own s) (hr : own r = .table r []) {pte : Nat}
    (hbound : (k + 1) * 4096 ≤ MAXVA) (hpte : mapping s r (k * 4096) = some pte)
    (hread : Flag pte PTE_R) :
    Wp E (uvmunmap r (k * 4096) 1 false) s fun _ s' => Kmem own s' ∧ Tables own s' ∧
      Local (Owner.Tree r) own own s s' ∧
      ∀ va < 2 ^ 39, mapping s' r va = if va / 4096 = k then none else mapping s r va := by
  obtain ⟨hv, rfl⟩ := mapping_eq_some.mp hpte
  refine (uvmunmap_spec hk ht hr hbound ?_ (by simp)).mono ?_
  · intro j hle hlt
    obtain rfl : j = k := by omega
    exact ⟨hv, ne_valid_of_read hread⟩
  rintro _ s' ⟨own', hs⟩
  obtain rfl : own' = own := by
    funext p
    rcases hs.owner p with hsame | ⟨hno, -⟩
    · exact hsame
    · cases hno
  refine ⟨hs.kmem, hs.tables, hs.isLocal, fun va hva => ?_⟩
  have hrange : k * 4096 ≤ va ∧ va < (k + 1) * 4096 ↔ va / 4096 = k := by lia
  split_ifs with hin
  · rw [mapping_eq_none, hs.lookup va hva, if_pos (hrange.mpr hin)]
    exact not_flag_zero _
  · refine mapping_congr ?_
    rw [hs.lookup va hva, if_neg fun h => hin (hrange.mp h)]

omit [Machine] in
theorem entry_read (pa perm : Nat) (hperm : perm < 1024) (h : Flag perm PTE_R) :
    Flag (entry pa perm) PTE_R :=
  (flag_entry (k := 1) hperm (by decide) (by decide)).mpr h

/-- `proc_freepagetable` frees all pages of the tree. -/
theorem procFreepagetable_spec {sz : Nat} (h : Heap own s) (hi : Image own s r (pages sz) tf) :
    Wp E (procFreepagetable r sz) s fun _ s' => ∃ own', Gone r own own' s s' := by
  obtain ⟨htramp, htrap, hend⟩ := top_pages
  have htr := hi.trampoline
  have htf := hi.trapframe
  rw [htramp] at htr
  rw [htrap] at htf
  rw [procFreepagetable, wp_bind, htramp]
  refine (unmap_one h.kmem h.tables hi.space.root (by rw [hend]; decide) htr
    (entry_read _ _ (by decide) (by decide))).mono ?_
  rintro _ s1 ⟨hk1, ht1, hl1, hmap1⟩
  rw [wp_bind, htrap]
  refine (unmap_one hk1 ht1 hi.space.root (by rw [hend]; decide) ?_
    (entry_read tf (PTE_R ||| PTE_W) (by decide) (by decide))).mono ?_
  · rw [hmap1 _ (by decide), if_neg (by decide), htf]
  rintro _ s2 ⟨hk2, ht2, hl2, hmap2⟩
  have hlow : ∀ va < TRAPFRAME, mapping s2 r va = mapping s r va := by
    intro va hlt
    rw [hmap2 va (by omega), if_neg (by omega), hmap1 va (by omega), if_neg (by omega)]
  have hspace : Space own s2 r (pages sz) := hi.space.congr hi.space.root hlow fun _ _ => Iff.rfl
  refine (uvmfree_spec hk2 ht2 hspace fun va hva hle => ?_).mono ?_
  · rw [hmap2 va hva]
    split_ifs with h2
    · rfl
    · rw [hmap1 va hva]
      split_ifs with h1
      · rfl
      · exact hi.above va (by omega) hva
  · rintro _ s' ⟨own', hg⟩
    exact ⟨own', hg.kmem, hg.tables, (hl1.trans hl2).trans hg.loc, hg.none⟩

theorem map_one (hk : Kmem own s) (ht : Tables own s) (hr : own r = .table r []) {pa perm : Nat}
    (hbound : (k + 1) * 4096 ≤ MAXVA) (hpa : pa < 2 ^ 56) (hperm : perm < 1024)
    (hnone : mapping s r (k * 4096) = none) :
    Wp E (mappages r (k * 4096) PGSIZE pa perm) s fun done s' => ∃ own', Kmem own' s' ∧
      Tables own' s' ∧ own' r = .table r [] ∧ Local (Owner.Tree r) own own' s s' ∧
      (∀ p j, own' p = .user r j ↔ own p = .user r j) ∧
      ∀ va < 2 ^ 39, mapping s' r va =
        if done = true ∧ va / 4096 = k then some (entry pa perm) else mapping s r va := by
  have hmax : MAXVA < 2 ^ 39 := MAXVA_lt
  rw [Nat.add_mul] at hbound
  have hclear : ∀ va, k * 4096 ≤ va → va < k * 4096 + 1 * 4096 → ¬ Flag (lookup s r va) PTE_V := by
    intro va hle hlt
    rw [← mapping_eq_none, mapping_page (by omega), show va / 4096 = k by omega]
    exact hnone
  rw [mappages, if_neg (by rw [PGSIZE]; omega), if_neg (by decide), if_neg (by decide)]
  refine (mappagesLoop_spec hk ht hr (by omega) hbound (by omega) hperm hclear).mono ?_
  rintro done s' ⟨own', m, hg, huser, hm, hdone, hmap⟩
  refine ⟨own', hg.kmem, hg.tables, hg.kept hr (by simp), hg.isLocal,
    fun p j => ⟨huser p j, fun hp => hg.kept hp (by simp)⟩, fun va hva => ?_⟩
  by_cases hin : done = true ∧ va / 4096 = k
  · have hzero : (va - k * 4096) / 4096 * 4096 = 0 := by lia
    rw [if_pos hin, mapping_eq_some, hmap va hva, hdone.mp hin.1, if_pos (by lia), hzero,
      Nat.add_zero]
    exact ⟨flag_valid, rfl⟩
  rw [if_neg hin]
  refine mapping_congr ?_
  rw [hmap va hva, if_neg]
  rintro ⟨hle, hlt⟩
  have hm1 : m = 1 := by omega
  exact hin ⟨hdone.mpr hm1, by omega⟩

theorem Heap.undo {own1 : Nat → Owner} {s1 : Mem} (h : Heap own s) (hr : own r = .free)
    (hl : Local (Owner.Tree r) own own1 s s1) (hg : Gone r own1 own' s1 s') :
    own' = own ∧ Local (· = .free) own own s s' := by
  have hl' := hl.trans hg.loc
  constructor
  · funext p
    rcases hl'.owner p with hsame | ⟨hp, hp'⟩
    · exact hsame
    · rw [h.fresh hr hp]
      by_contra hne
      exact hg.none p hne hp'
  · refine ⟨fun _ => .inl rfl, fun q hq hfree => hl'.frame q hq fun htree => hfree ?_⟩
    exact h.fresh hr htree

/-- `proc_pagetable` makes an address space without pages of the user, or changes nothing. -/
theorem procPagetable_spec (h : Heap own s) (htf : tf < 2 ^ 56) :
    Wp E (procPagetable tf) s fun r s' =>
      r = 0 ∧ Heap own s' ∧ Local (· = .free) own own s s' ∨
      r ≠ 0 ∧ own r = .free ∧ ∃ own', Heap own' s' ∧ Image own' s' r 0 tf ∧
        Local (Owner.Tree r) own own' s s' := by
  obtain ⟨htramp, htrap, hend⟩ := top_pages
  have hpatr : Machine.trampoline < 2 ^ 56 := by
    have h1 := Machine.trampoline_lt
    have h2 := Machine.le_phystop
    have h3 : PHYSTOP < 2 ^ 56 := by decide
    omega
  rw [procPagetable]
  refine (uvmcreate_spec h.kmem h.tables).bind ?_
  rintro r s1 (⟨rfl, hpage, hk1⟩ | ⟨hfree, hpool, hk1, ht1, hempty, hframe⟩)
  · rw [if_pos rfl, wp_pure]
    exact .inl ⟨rfl, ⟨hk1, h.tables.congr fun _ _ _ _ => congrFun hpage _, h.user⟩,
      ⟨fun _ => .inl rfl, fun _ _ _ => congrFun hpage _⟩⟩
  generalize hown1 : update own r (.table r []) = own1 at hk1 ht1
  have hr1 : own1 r = .table r [] := by rw [← hown1, update_self]
  have hne1 : ∀ {q}, q ≠ r → own1 q = own q := by
    intro q hq
    rw [← hown1, update_of_ne hq]
  have hl1 : Local (Owner.Tree r) own own1 s s1 := by
    refine ⟨fun p => ?_, fun q hq hm => hframe q hq ?_⟩
    · by_cases hp : p = r
      · rw [hp, hfree, hr1]
        exact .inr ⟨.free, .table _⟩
      · exact .inl (hne1 hp)
    · rintro rfl
      rw [hfree] at hm
      exact hm .free
  have huser1 : ∀ p j, own1 p ≠ .user r j := by
    intro p j hp
    have hpr : p ≠ r := by
      rintro rfl
      rw [hr1] at hp
      cases hp
    rw [hne1 hpr] at hp
    have := h.user hp
    rw [hfree] at this
    cases this
  have hnone1 : ∀ va, mapping s1 r va = none := fun va => by
    rw [mapping_eq_none, hempty]
    exact not_flag_zero _
  -- a tree with nothing of the user's
  have hspace : ∀ {own2 s2}, own2 r = .table r [] → (∀ p j, own2 p ≠ .user r j) →
      (∀ va < TRAPFRAME, mapping s2 r va = none) → Space own2 s2 r 0 := by
    intro own2 s2 hr2 huser2 hnone2
    exact ⟨hr2, by decide, fun j hj => absurd hj (Nat.not_lt_zero _),
      fun p j hp => absurd hp (huser2 p j), fun j _ hlt => hnone2 _ hlt⟩
  -- giving it up
  have hundo : ∀ {own2 s2}, Kmem own2 s2 → Tables own2 s2 → own2 r = .table r [] →
      (∀ p j, own2 p ≠ .user r j) → (∀ va < 2 ^ 39, mapping s2 r va = none) →
      Local (Owner.Tree r) own own2 s s2 → Wp E (uvmfree r 0) s2 fun _ s' =>
        Heap own s' ∧ Local (· = .free) own own s s' := by
    intro own2 s2 hk2 ht2 hr2 huser2 hnone2 hl2
    have hp0 : pages 0 = 0 := rfl
    refine (uvmfree_spec hk2 ht2 (hp0 ▸ hspace hr2 huser2 fun va hva =>
      hnone2 va (by have := TRAPFRAME_lt; omega)) fun va hva _ => hnone2 va hva).mono ?_
    rintro _ s' ⟨own', hg⟩
    obtain ⟨heq, hl'⟩ := h.undo hfree hl2 hg
    subst heq
    exact ⟨⟨hg.kmem, hg.tables, h.user⟩, hl'⟩
  rw [if_neg hpool.ne_zero, wp_bind, htramp]
  refine (map_one hk1 ht1 hr1 (by rw [hend]; decide) hpatr (by decide) (hnone1 _)).mono ?_
  rintro done s2 ⟨own2, hk2, ht2, hr2, hl2, huser2, hmap2⟩
  have huser2' : ∀ p j, own2 p ≠ .user r j := fun p j hp => huser1 p j ((huser2 p j).mp hp)
  cases done with
  | false =>
    rw [if_pos rfl]
    refine (hundo hk2 ht2 hr2 huser2' (fun va hva => ?_) (hl1.trans hl2)).bind ?_
    · rw [hmap2 va hva, if_neg (by simp), hnone1]
    · rintro _ s' hs
      exact .inl ⟨rfl, hs⟩
  | true =>
    rw [if_neg (by simp), wp_bind, htrap]
    refine (map_one hk2 ht2 hr2 (by rw [hend]; decide) htf (by decide) ?_).mono ?_
    · rw [hmap2 _ (by decide), if_neg (by decide), hnone1]
    rintro done s3 ⟨own3, hk3, ht3, hr3, hl3, huser3, hmap3⟩
    have huser3' : ∀ p j, own3 p ≠ .user r j := fun p j hp => huser2' p j ((huser3 p j).mp hp)
    cases done with
    | false =>
      rw [if_pos rfl, wp_bind]
      have htr : mapping s3 r ((2 ^ 26 - 1) * 4096) =
          some (entry Machine.trampoline (PTE_R ||| PTE_X)) := by
        rw [hmap3 _ (by decide), if_neg (by simp), hmap2 _ (by decide), if_pos ⟨rfl, by decide⟩]
      refine (unmap_one hk3 ht3 hr3 (by rw [hend]; decide) htr
        (entry_read _ _ (by decide) (by decide))).mono ?_
      rintro _ s4 ⟨hk4, ht4, hl4, hmap4⟩
      refine (hundo hk4 ht4 hr3 huser3' (fun va hva => ?_)
        (((hl1.trans hl2).trans hl3).trans hl4)).bind ?_
      · rw [hmap4 va hva]
        split_ifs with hin
        · rfl
        · rw [hmap3 va hva, if_neg (by simp), hmap2 va hva, if_neg fun h => hin h.2, hnone1]
      · rintro _ s' hs
        exact .inl ⟨rfl, hs⟩
    | true =>
      rw [if_neg (by simp), wp_pure]
      refine .inr ⟨hpool.ne_zero, hfree, own3, ⟨hk3, ht3, fun {p r' j} hp => ?_⟩,
        ⟨hspace hr3 huser3' fun va hlt => ?_, ?_, ?_, fun va hle hlt => ?_⟩,
        (hl1.trans hl2).trans hl3⟩
      · have hne : r' ≠ r := by
          rintro rfl
          exact huser3' p j hp
        have hl := (hl1.trans hl2).trans hl3
        have hother : ∀ o, Owner.Tree r o → o ≠ .user r' j ∧ o ≠ .table r' [] := by
          intro o ho
          cases ho with
          | free => simp
          | table | user => simp [hne.symm]
        have hp' : own p = .user r' j := (hl.kept fun ho => (hother _ ho).1 rfl).mp hp
        exact (hl.kept fun ho => (hother _ ho).2 rfl).mpr (h.user hp')
      · rw [hmap3 va (by omega), if_neg (by omega), hmap2 va (by omega), if_neg (by omega), hnone1]
      · rw [htramp, hmap3 _ (by decide), if_neg (by decide), hmap2 _ (by decide),
          if_pos ⟨rfl, by decide⟩]
      · rw [htrap, hmap3 _ (by decide), if_pos ⟨rfl, by decide⟩]
      · rw [hmap3 va hlt, if_neg (by omega), hmap2 va hlt, if_neg (by omega), hnone1]

/-- A new page of `uvmcopy` has the flags and the contents of the old one. -/
def Copied (s₀ : Mem) (old k flags : Nat) (pg : Page) : Prop :=
  ∃ pte, mapping s₀ old (k * 4096) = some pte ∧ flags = PTE_FLAGS pte ∧
    pg = s₀.page (PTE2PA pte / PGSIZE)

theorem uvmcopyLoop_spec {own0 : Nat → Owner} {s0 : Mem} {old new m : Nat}
    (ht : Tables own0 s0) (hold : Space own0 s0 old m) (hnew : Space own0 s0 new 0)
    (hne : old ≠ new) (hn : k + n ≤ m) (h : Grown (Copied s0 old) new 0 k own0 own s0 s) :
    Wp E (uvmcopyLoop old new n (k * 4096)) s fun done s' =>
      ∃ own', Grown (Copied s0 old) new 0 (if done = true then k + n else 0) own0 own' s0 s' := by
  induction n generalizing own s k with
  | zero => exact ⟨own, h⟩
  | succ n ih =>
    have hmaxtf := TRAPFRAME_le
    obtain ⟨pte, hpte, hread, hown, hpool'⟩ := hold.mapped k (by omega)
    have hlt := hold.lt (k := k) (by omega)
    have hlook : lookup s old (k * 4096) = pte := by
      rw [h.grows.lookup_other ht hold.root hne]
      exact (mapping_eq_some.mp hpte).2
    have hv := (mapping_eq_some.mp hpte).1
    obtain ⟨p, hdesc⟩ : ∃ p, descend s (k * 4096) 2 old = some p := by
      refine descend_of_valid ?_
      rw [← lookup, hlook]
      exact hv
    have hword : s.word p (PX 0 (k * 4096)) = pte := by
      rw [← hlook]
      exact (lookupFrom_descend hdesc).symm
    have hread' : Flag (PTE_FLAGS pte) PTE_R := (flag_flags (k := 1) (by decide)).mpr hread
    have hdiv : k * 4096 / PGSIZE = k := by
      rw [PGSIZE]
      omega
    rw [uvmcopyLoop, wp_bind, wp_walk_false (by omega), hdesc]
    simp only [Option.map_some, wp_bind, wp_get, hword, hv, not_true_eq_false, if_false, hdiv]
    refine (kalloc_spec h.grows.kmem).mono ?_
    rintro mem s1 (⟨rfl, hpage, hk1⟩ | ⟨hne0, hfree, hpool, hk1, hframe⟩)
    · have h1 := h.tables (.of_page hk1 h.grows.tables hpage)
        (fun va _ => h.grows.tables.lookupFrom_congr h.space.root rfl fun _ _ _ => congrFun hpage _)
        fun _ _ hp => hp
      simp only [if_true, wp_bind, wp_pure]
      exact (h1.unmap hnew).mono fun _ _ hs => hs
    rw [if_neg hne0]
    simp only [wp_bind, wp_modify]
    have hown' : own (PTE2PA pte) = .user old k := h.grows.kept hown (by simp)
    have hcopy : s1.page (PTE2PA pte / PGSIZE) = s0.page (PTE2PA pte / PGSIZE) := by
      rw [hframe _ (PTE2PA_aligned _), h.grows.frame _ (PTE2PA_aligned _)]
      · rw [hown]
        simp
      · rw [hown]
        simp
      · rintro heq
        rw [heq, hfree] at hown'
        cases hown'
    refine (h.mappages hfree hpool (hk1.setPage hpool.1 (by simp))
      (.setPage hpool.1 hframe) (PTE_FLAGS_lt pte) hread' ?_).mono ?_
    · refine ⟨pte, hpte, flags_or_valid hv, ?_⟩
      rw [Mem.setPage_self, hcopy]
    intro done s3 hdone
    cases done with
    | true =>
      obtain ⟨own3, h3, -⟩ := hdone
      simp only [Bool.true_eq_false, if_false]
      rw [show k * 4096 + PGSIZE = (k + 1) * 4096 by rw [PGSIZE]; omega]
      refine (ih (by omega) h3).mono ?_
      rintro done s4 ⟨own4, h4⟩
      rw [show k + 1 + n = k + (n + 1) by omega] at h4
      exact ⟨own4, h4⟩
    | false =>
      obtain ⟨own3, hk3, hheld, hback⟩ := hdone
      simp only [if_true, wp_bind, wp_pure]
      refine (kfree_spec hk3 hpool (by rw [hheld]; simp)).mono ?_
      rintro _ s4 ⟨hk4, hframe4⟩
      exact ((hback s4 hk4 hframe4).unmap hnew).mono fun _ _ hs => hs

/-- `uvmcopy` copies all pages or none. -/
theorem uvmcopy_spec {old new sz : Nat} (hk : Kmem own s) (ht : Tables own s)
    (hold : Space own s old (pages sz)) (hnew : Space own s new 0) (hne : old ≠ new) :
    Wp E (uvmcopy old new sz) s fun done s' =>
      ∃ own', Grown (Copied s old) new 0 (if done = true then pages sz else 0) own own' s s' := by
  have hcount : (sz + PGSIZE - 1) / PGSIZE = pages sz := by
    rw [pages, PGSIZE]
    omega
  rw [uvmcopy, hcount]
  refine (uvmcopyLoop_spec (k := 0) ht hold hnew hne (by omega) (.refl hnew hk ht)).mono ?_
  rintro done s' ⟨own', hg⟩
  rw [Nat.zero_add] at hg
  exact ⟨own', hg⟩

end Xv6.Vm
