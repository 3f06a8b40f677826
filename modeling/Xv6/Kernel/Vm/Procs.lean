import Xv6.Kernel.Vm.System
import Xv6.Kernel.Vm.ExecSpec

namespace Xv6.Vm

open ByteCodec Hoare Function List

section Rules

variable {α : Type} {S : Sys} {E : Stop → Prop}

@[simp] theorem wp_onMem (x : MemM α) (Q : α → Sys → Prop) :
    Wp E (onMem x) S Q ↔ Wp E x S.mem fun a m => Q a { S with mem := m } := by
  unfold Wp onMem
  cases x S.mem <;> rfl

@[simp] theorem wp_setProc (i : Fin NPROC) (f : Proc → Proc) (Q : Unit → Sys → Prop) :
    Wp E (setProc i f) S Q ↔ Q () { S with proc := update S.proc i (f (S.proc i)) } :=
  Iff.rfl

@[simp] theorem wp_setFile (f : Fin NFILE) (g : File → File) (Q : Unit → Sys → Prop) :
    Wp E (setFile f g) S Q ↔ Q () { S with file := update S.file f (g (S.file f)) } :=
  Iff.rfl

theorem wp_discard (x : SysM α) (Q : Unit → Sys → Prop) :
    Wp E (discard x) S Q ↔ Wp E x S fun _ => Q () := by
  have hx : discard x = x >>= fun _ => pure () := rfl
  rw [hx, wp_bind]
  rfl

end Rules

/-- The uses of pages that are not in a tree. -/
def Owner.Single (o : Owner) : Prop := (∀ r path, o ≠ .table r path) ∧ ∀ r k, o ≠ .user r k

section

variable [Machine] {own own' : Nat → Owner} {s s' : Mem} {r n k p tf : Nat} {M : Owner → Prop}
  {E : Stop → Prop} {o : Owner}

theorem Heap.updated (h : Heap own s) (hk : Kmem (update own p o) s') (hp : (own p).Single)
    (ho : o.Single) (hframe : Mem.Only p s s') : Heap (update own p o) s' := by
  have hne : ∀ {q}, update own p o q ≠ o → q ≠ p := by
    rintro q hq rfl
    rw [update_self] at hq
    exact hq rfl
  have ht := h.tables.updated hp.1 ho.1
  refine ⟨hk, ht.congr fun q r path hq => ?_, fun {q r k} hq => ?_⟩
  · exact hframe q (ht.pool hq).1 (hne (by rw [hq]; exact (ho.1 r path).symm))
  · rw [update_of_ne (hne (by rw [hq]; exact (ho.2 r k).symm))] at hq
    rw [update_of_ne]
    · exact h.user hq
    · rintro rfl
      exact hp.1 _ _ (h.user hq)

omit [Machine] in
theorem Local.updated (hp : M (own p)) (ho : M o) (hframe : Mem.Only p s s') :
    Local M own (update own p o) s s' := by
  refine ⟨fun q => ?_, fun q hq hm => hframe q hq ?_⟩
  · by_cases hqp : q = p
    · subst hqp
      rw [update_self]
      exact .inr ⟨hp, ho⟩
    · exact .inl (update_of_ne hqp ..)
  · rintro rfl
    exact hm hp

/-- `kalloc` of a page that is not for a tree. -/
theorem Heap.kalloc (h : Heap own s) (ho : o.Single) (hfree : o ≠ .free) :
    Wp E kalloc s fun p s' =>
      p = 0 ∧ Heap own s' ∧ Local (· = .free) own own s s' ∨
      p ≠ 0 ∧ own p = .free ∧ Pool p ∧ Heap (update own p o) s' ∧
        Local (fun x => x = .free ∨ x = o) own (update own p o) s s' ∧ Mem.Only p s s' := by
  refine (kalloc_spec h.kmem).mono ?_
  rintro p s' (⟨rfl, hpage, hk⟩ | ⟨hne, hp, hpool, hk, hframe⟩)
  · exact .inl ⟨rfl, ⟨hk, h.tables.congr fun _ _ _ _ => congrFun hpage _, h.user⟩,
      ⟨fun _ => .inl rfl, fun _ _ _ => congrFun hpage _⟩⟩
  · have hk' : Kmem (update own p o) s' := by
      have := hk.reown (p := p) (o := o) (by simp) hfree
      rwa [update_idem] at this
    exact .inr ⟨hne, hp, hpool, h.updated hk' (by simp [hp, Owner.Single]) ho hframe,
      .updated (.inl hp) (.inr rfl) hframe, hframe⟩

theorem Heap.kfree (h : Heap own s) (hp : Pool p) (hown : own p = o) (ho : o.Single)
    (hfree : o ≠ .free) :
    Wp E (kfree p) s fun _ s' => Heap (update own p .free) s' ∧
      Local (fun x => x = .free ∨ x = o) own (update own p .free) s s' ∧ Mem.Only p s s' := by
  refine (kfree_spec h.kmem hp (by rwa [hown])).mono ?_
  rintro _ s' ⟨hk, hframe⟩
  exact ⟨h.updated hk (by rwa [hown]) (by simp [Owner.Single]) hframe,
    .updated (.inr hown) (.inl rfl) hframe, hframe⟩

omit [Machine] in
theorem Local.undo (h : Local M own own' s s') (hfresh : ∀ p, M (own p) → own p = .free)
    (hback : ∀ p, M (own' p) → own' p = .free) : own' = own ∧ Local (· = .free) own own s s' := by
  refine ⟨funext fun p => ?_, fun _ => .inl rfl, fun q hq hm => h.frame q hq fun hM => ?_⟩
  · rcases h.owner p with hsame | ⟨hp, hp'⟩
    · exact hsame
    · rw [hfresh p hp, hback p hp']
  · exact hm (hfresh q hM)

end

/-- The uses that belong to process `i`, whose page table is at `r`. -/
inductive Owner.Of (i : Fin NPROC) (r : Nat) : Owner → Prop
  | table (path : List Nat) (h : r ≠ 0) : Owner.Of i r (.table r path)
  | user (k : Nat) (h : r ≠ 0) : Owner.Of i r (.user r k)
  | trapframe : Owner.Of i r (.trapframe i)

/-- Free pages and those of a process. -/
def Owner.Avail (i : Fin NPROC) (r : Nat) (o : Owner) : Prop := o = .free ∨ o.Of i r

variable {i : Fin NPROC} {r : Nat} {o : Owner}

theorem Owner.Tree.avail (h : o.Tree r) (hr : r ≠ 0) : o.Avail i r := by
  cases h with
  | free => exact .inl rfl
  | table path => exact .inr (.table path hr)
  | user k => exact .inr (.user k hr)

theorem Owner.not_tree_trapframe : ¬ Owner.Tree r (.trapframe i) := by
  intro h
  cases h

theorem Owner.Tree.not_of {r' : Nat} (h : o.Tree r) (hne : r' ≠ r) : ¬ o.Of i r' := by
  intro h'
  cases h with
  | free => cases h'
  | table | user =>
    cases h'
    exact hne rfl

theorem Owner.Of.disjoint {j : Fin NPROC} {r' : Nat} (hij : j ≠ i)
    (hr : r ≠ 0 → r' ≠ r) (h : o.Of i r) : ¬ o.Of j r' := by
  intro h'
  cases h with
  | table _ h0 | user _ h0 =>
    cases h'
    exact hr h0 rfl
  | trapframe =>
    cases h'
    exact hij rfl

/-- The pages of the processes: each has a tree and a trapframe of its own, and there are no others. -/
structure Procs [Machine] (own : Nat → Owner) (m : Mem) (proc : Fin NPROC → Proc) : Prop where
  heap : Heap own m
  pool : ∀ p, own p = .none ↔ ¬ Pool p
  image : ∀ i, (proc i).pagetable ≠ 0 →
    Image own m (proc i).pagetable (pages (proc i).sz) (proc i).trapframe
  inj : ∀ i j, (proc i).pagetable ≠ 0 → (proc i).pagetable = (proc j).pagetable → i = j
  table : ∀ {p r path}, own p = .table r path → ∃ i, (proc i).pagetable = r
  trapframe : ∀ i p, p ≠ 0 → (own p = .trapframe i ↔ (proc i).trapframe = p)

section

variable [Machine] {own own' own'' : Nat → Owner} {m m' m'' : Mem} {proc proc' : Fin NPROC → Proc}
  {i j : Fin NPROC} {q : Proc} {p r : Nat} {M : Owner → Prop} {E : Stop → Prop} {o : Owner}

section

variable (h : Procs own m proc)
include h

theorem Procs.isPool (hp : own p = o) (ho : o ≠ .none) : Pool p := by
  by_contra hno
  exact ho (hp.symm.trans ((h.pool p).mpr hno))

theorem Procs.ne_fresh (hj : (proc j).pagetable ≠ 0) (hr : own r = .free) :
    (proc j).pagetable ≠ r := by
  rintro rfl
  have := (h.image j hj).space.root
  rw [hr] at this
  cases this

theorem Procs.disjoint (hij : j ≠ i) (ho : o.Of i (proc i).pagetable) :
    ¬ o.Of j (proc j).pagetable :=
  ho.disjoint hij fun hne heq => hij (h.inj i j hne heq.symm).symm

theorem Procs.image_other (hl : Local M own own' m m')
    (hM : ∀ o, M o → ¬ o.Of j (proc j).pagetable) (hj : (proc j).pagetable ≠ 0) :
    Image own' m' (proc j).pagetable (pages (proc j).sz) (proc j).trapframe :=
  (h.image j hj).other h.heap.tables hl (fun path hm => hM _ hm (.table path hj))
    fun k hm => hM _ hm (.user k hj)

section

variable (hheap : Heap own' m') (hl : Local M own own' m m') (hnone : ¬ M .none)
include hheap hl hnone

/-- One process gets other pages; the others are not concerned. -/
theorem Procs.replace (hM : ∀ j, j ≠ i → ∀ o, M o → ¬ o.Of j (proc j).pagetable)
    (himage : q.pagetable ≠ 0 → Image own' m' q.pagetable (pages q.sz) q.trapframe)
    (hnew : q.pagetable ≠ 0 → ∀ j, j ≠ i → (proc j).pagetable ≠ q.pagetable)
    (hold : ∀ p path, own' p = .table (proc i).pagetable path → q.pagetable = (proc i).pagetable)
    (htable : ∀ r path, M (.table r path) → r = (proc i).pagetable ∨ r = q.pagetable)
    (htf : ∀ p, p ≠ 0 → (own' p = .trapframe i ↔ q.trapframe = p)) :
    Procs own' m' (update proc i q) := by
  refine ⟨hheap, fun p => (hl.kept hnone).trans (h.pool p), ?_, ?_, ?_, ?_⟩
  · intro j hj
    by_cases hji : j = i
    · subst hji
      rw [update_self] at hj ⊢
      exact himage hj
    · rw [update_of_ne hji] at hj ⊢
      exact h.image_other hl (hM j hji) hj
  · intro j k hj heq
    by_cases hji : j = i
    · subst hji
      rw [update_self] at hj heq
      by_contra hkj
      rw [update_of_ne (Ne.symm hkj)] at heq
      exact hnew hj k (Ne.symm hkj) heq.symm
    rw [update_of_ne hji] at hj heq
    by_cases hki : k = i
    · subst hki
      rw [update_self] at heq
      exact absurd heq (hnew (heq ▸ hj) j hji)
    · rw [update_of_ne hki] at heq
      exact h.inj j k hj heq
  · intro p r path hp
    have hq : r = (proc i).pagetable → update proc i q i = q ∧ q.pagetable = r := by
      rintro rfl
      exact ⟨update_self .., hold p path hp⟩
    by_cases hm : M (.table r path)
    · refine ⟨i, ?_⟩
      rw [update_self]
      rcases htable r path hm with hr | hr
      · exact (hq hr).2
      · exact hr.symm
    obtain ⟨j, hj⟩ := h.table ((hl.kept hm).mp hp)
    by_cases hji : j = i
    · subst hji
      refine ⟨j, ?_⟩
      rw [update_self]
      exact (hq hj.symm).2
    · exact ⟨j, by rwa [update_of_ne hji]⟩
  · intro j p hp
    by_cases hji : j = i
    · subst hji
      rw [update_self]
      exact htf p hp
    · rw [update_of_ne hji, hl.kept fun hm => hM j hji _ hm .trapframe]
      exact h.trapframe j p hp

theorem Procs.keep (hsingle : ∀ o, M o → o.Single) (htf : ∀ i, ¬ M (.trapframe i)) :
    Procs own' m' proc := by
  have hM : ∀ j o, M o → ¬ o.Of j (proc j).pagetable := by
    intro j o hm ho
    cases ho with
    | table path => exact (hsingle _ hm).1 _ _ rfl
    | user k => exact (hsingle _ hm).2 _ _ rfl
    | trapframe => exact htf j hm
  refine ⟨hheap, fun p => (hl.kept hnone).trans (h.pool p), fun j hj => h.image_other hl (hM j) hj,
    h.inj, fun hp => h.table ((hl.kept ?_).mp hp), fun i p hp => ?_⟩
  · exact fun hm => (hsingle _ hm).1 _ _ rfl
  · exact (hl.kept (htf i)).trans (h.trapframe i p hp)

end

theorem Procs.touches (ht : Touches M own m m') (hM : ∀ o, M o → o.Data) : Procs own m' proc :=
  ⟨h.heap.touches ht hM, h.pool, fun i hi => (h.image i hi).touches ht h.heap.tables hM, h.inj,
    h.table, h.trapframe⟩

theorem Procs.congr (hsame : ∀ j, (proc' j).pagetable = (proc j).pagetable ∧ (proc' j).sz = (proc j).sz ∧
      (proc' j).trapframe = (proc j).trapframe) : Procs own m proc' := by
  refine ⟨h.heap, h.pool, ?_, ?_, ?_, ?_⟩
  · intro i hi
    obtain ⟨h1, h2, h3⟩ := hsame i
    rw [h1] at hi
    rw [h1, h2, h3]
    exact h.image i hi
  · intro i j hi heq
    rw [(hsame i).1] at hi heq
    rw [(hsame j).1] at heq
    exact h.inj i j hi heq
  · intro p r path hp
    obtain ⟨i, hi⟩ := h.table hp
    exact ⟨i, (hsame i).1.trans hi⟩
  · intro i p hp
    rw [(hsame i).2.2]
    exact h.trapframe i p hp

theorem Procs.updated (hp : q.pagetable = (proc i).pagetable) (hsz : q.sz = (proc i).sz)
    (ht : q.trapframe = (proc i).trapframe) : Procs own m (update proc i q) := by
  refine h.congr fun j => ?_
  by_cases hj : j = i
  · subst hj
    rw [update_self]
    exact ⟨hp, hsz, ht⟩
  · rw [update_of_ne hj]
    exact ⟨rfl, rfl, rfl⟩

theorem freeMem_spec (i : Fin NPROC) :
    Wp E (freeMem (proc i).trapframe (proc i).pagetable (proc i).sz) m fun _ m' =>
      ∃ own', Heap own' m' ∧ Local (Owner.Avail i (proc i).pagetable) own own' m m' ∧
        ∀ p, (own' p).Avail i (proc i).pagetable → own' p = .free := by
  have himage := h.image i
  have htf : ∀ {p}, own p = .trapframe i → (proc i).trapframe = p ∧ p ≠ 0 := by
    intro p hp
    have hne := (h.isPool hp (by simp)).ne_zero
    exact ⟨(h.trapframe i p hne).mp hp, hne⟩
  generalize (proc i).pagetable = r at *
  generalize (proc i).sz = sz at *
  -- the page table is freed in a state without the trapframe
  have hrest : ∀ {own1 m1}, Heap own1 m1 → Local (Owner.Avail i r) own own1 m m1 →
      (∀ p, own1 p ≠ .trapframe i) → (r ≠ 0 → Image own1 m1 r (pages sz) (proc i).trapframe) →
      Wp E (if r ≠ 0 then procFreepagetable r sz else pure ()) m1 fun _ m' =>
        ∃ own', Heap own' m' ∧ Local (Owner.Avail i r) own own' m m' ∧
          ∀ p, (own' p).Avail i r → own' p = .free := by
    intro own1 m1 hheap1 hl1 hno1 himage1
    by_cases hr : r = 0
    · rw [if_neg (by simpa using hr), wp_pure]
      refine ⟨own1, hheap1, hl1, fun p hp => ?_⟩
      rcases hp with hp | hp
      · exact hp
      · generalize ho : own1 p = o at hp
        cases hp with
        | table _ h0 | user _ h0 => exact absurd hr h0
        | trapframe => exact absurd ho (hno1 p)
    rw [if_pos hr]
    refine (procFreepagetable_spec hheap1 (himage1 hr)).mono ?_
    rintro _ m' ⟨own', hg⟩
    refine ⟨own', hheap1.gone hg, hl1.trans (hg.loc.mono fun o ho => ho.avail hr), fun p hp => ?_⟩
    by_contra hfree
    have hnone := hg.none p hfree
    rcases hp with hp | hp
    · exact hfree hp
    generalize ho : own' p = o at hp hnone
    cases hp with
    | table path => exact hnone (.table path)
    | user k => exact hnone (.user k)
    | trapframe =>
      exact hno1 p ((hg.loc.kept Owner.not_tree_trapframe).mp ho)
  rw [freeMem]
  by_cases h0 : (proc i).trapframe = 0
  · rw [if_neg (by simpa using h0)]
    refine hrest h.heap .refl (fun p hp => ?_) himage
    obtain ⟨heq, hne⟩ := htf hp
    exact hne (heq.symm.trans h0)
  have hown := (h.trapframe i _ h0).mpr rfl
  rw [if_pos h0]
  refine (h.heap.kfree (h.isPool hown (by simp)) hown (by simp [Owner.Single]) (by simp)).bind ?_
  rintro _ m1 ⟨hheap1, hl1, -⟩
  refine hrest hheap1 (hl1.mono ?_) (fun p hp => ?_) fun hr => ?_
  · rintro o (rfl | rfl)
    · exact .inl rfl
    · exact .inr .trapframe
  · by_cases hpt : p = (proc i).trapframe
    · subst hpt
      rw [update_self] at hp
      cases hp
    · rw [update_of_ne hpt] at hp
      exact hpt (htf hp).1.symm
  · exact (himage hr).other h.heap.tables hl1 (by simp) (by simp)

end

def Proc.freed (p : Proc) : Proc := { p with
  trapframe := 0, pagetable := 0, sz := 0, pid := 0, parent := none, killed := false, xstate := 0
  name := 0 :: p.name.tail, state := .UNUSED }

variable {S : Sys}

/-- `freeproc` gives all pages of the process back. -/
theorem freeproc_spec (h : Procs own S.mem S.proc) :
    Wp E (freeproc i) S fun _ S' => ∃ own' m',
      S' = { S with mem := m', proc := update S.proc i (S.proc i).freed } ∧
      Procs own' m' S'.proc ∧ Local (Owner.Avail i (S.proc i).pagetable) own own' S.mem m' ∧
      ∀ p, (own' p).Avail i (S.proc i).pagetable → own' p = .free := by
  rw [freeproc]
  simp only [wp_bind, wp_get, wp_onMem, wp_setProc]
  refine (freeMem_spec h i).mono ?_
  rintro _ m' ⟨own', hheap, hl, hfree⟩
  refine ⟨own', m', rfl, h.replace hheap hl ?_ ?_ (absurd rfl) (absurd rfl) ?_ ?_ ?_, hl, hfree⟩
  · rintro (h0 | h0) <;> cases h0
  · rintro j hj o (rfl | ho)
    · exact fun hno => by cases hno
    · exact h.disjoint hj ho
  · intro p path hp
    by_contra hne
    have := hfree p (hp ▸ .inr (.table path fun h0 => hne h0.symm))
    rw [hp] at this
    cases this
  · rintro r path (h0 | h0)
    · cases h0
    · cases h0
      exact .inl rfl
  · intro p hp
    refine iff_of_false (fun hown => ?_) hp.symm
    have := hfree p (hown ▸ .inr .trapframe)
    rw [hown] at this
    cases this

/-- What is always true of a process in the table: it has pages just if it is in use, and no open
files unless it is running. -/
structure Proc.Ok (p : Proc) : Prop where
  unused : p.state = .UNUSED → p.pagetable = 0 ∧ p.trapframe = 0 ∧ p.sz = 0
  live : p.state ≠ .UNUSED → p.pagetable ≠ 0 ∧ p.trapframe ≠ 0
  closed : p.state = .UNUSED ∨ p.state = .ZOMBIE → (∀ fd, p.ofile fd = none) ∧ p.cwd = none

variable {tf : Nat}

theorem Procs.addTrapframe (h : Procs own m proc) (hp : (proc i).pagetable = 0)
    (ht : (proc i).trapframe = 0) (hq : q.pagetable = 0) (hqt : q.trapframe = tf)
    (hne : tf ≠ 0) (hheap : Heap (update own tf (.trapframe i)) m')
    (hl : Local (fun x => x = .free ∨ x = .trapframe i) own (update own tf (.trapframe i)) m m') :
    Procs (update own tf (.trapframe i)) m' (update proc i q) := by
  refine h.replace hheap hl (by simp) ?_ (absurd hq) (absurd hq) (fun _ _ _ => ?_) (by simp) ?_
  · rintro j hj o (rfl | rfl) ho
    · cases ho
    · cases ho
      exact hj rfl
  · rw [hq, hp]
  intro p hp0
  by_cases hpt : p = tf
  · subst hpt
    simp [hqt]
  · rw [update_of_ne hpt, h.trapframe i p hp0, ht, hqt]
    exact iff_of_false hp0.symm (Ne.symm hpt)

theorem Procs.addTree (h : Procs own m proc) (hp : (proc i).pagetable = 0) (hr : own r = .free)
    (hne : r ≠ 0) (hheap : Heap own' m') (hl : Local (Owner.Tree r) own own' m m')
    (hq : q.pagetable = r) (hqt : q.trapframe = (proc i).trapframe)
    (himage : Image own' m' r (pages q.sz) q.trapframe) : Procs own' m' (update proc i q) := by
  have hother : ∀ j, (proc j).pagetable ≠ r := by
    intro j hj
    exact h.ne_fresh (hj ▸ hne) hr hj
  refine h.replace hheap hl (fun h0 => by cases h0) ?_ (fun _ => ?_) ?_ ?_ ?_ ?_
  · exact fun j _ o ht => ht.not_of (hother j)
  · rwa [hq]
  · intro _ j _
    rw [hq]
    exact hother j
  · intro p path hp'
    rw [hp] at hp'
    have hroot := (hheap.tables.above (show own' p = .table 0 ([] ++ path) from hp'))
    obtain ⟨p0, hp₀⟩ := hroot
    have := hheap.tables.pool hp₀
    rw [hheap.tables.root hp₀] at this
    exact absurd rfl this.ne_zero
  · intro r' path ht
    cases ht
    exact .inr hq.symm
  · intro p hp0
    rw [hqt, hl.kept Owner.not_tree_trapframe]
    exact h.trapframe i p hp0

theorem freeproc_undo {own0 : Nat → Owner} {m0 : Mem} (h : Procs own S.mem S.proc)
    (hl : Local (Owner.Avail i (S.proc i).pagetable) own0 own m0 S.mem)
    (hfresh : ∀ p, (own0 p).Avail i (S.proc i).pagetable → own0 p = .free) :
    Wp E (freeproc i) S fun _ S' => ∃ m',
      S' = { S with mem := m', proc := update S.proc i (S.proc i).freed } ∧
      Procs own0 m' S'.proc ∧ Local (· = .free) own0 own0 m0 m' := by
  refine (freeproc_spec h).mono ?_
  rintro _ S' ⟨own', m', hS, h', hl', hback⟩
  obtain ⟨heq, hl0⟩ := (hl.trans hl').undo hfresh hback
  rw [heq] at h'
  exact ⟨m', hS, h', hl0⟩

/-- `allocproc` gives back what it has taken, or makes an address space in an unused slot. -/
theorem allocproc_spec (h : Procs own S.mem S.proc) (hok : ∀ i, (S.proc i).Ok) :
    Wp E allocproc S fun res S' => ∃ m' pid, (res = none ∧ (∀ j, S'.proc j = S.proc j ∨
          (S.proc j).state = .UNUSED ∧ S'.proc j = (S.proc j).freed) ∧
        S' = { S with mem := m', proc := S'.proc, nextpid := pid } ∧
        Procs own m' S'.proc ∧ Local (· = .free) own own S.mem m') ∨
      ∃ i tf r own', res = some i ∧ (S.proc i).state = .UNUSED ∧ tf ≠ 0 ∧ r ≠ 0 ∧
        own tf = .free ∧ own r = .free ∧
        S' = { S with mem := m', nextpid := pid, proc := update S.proc i { S.proc i with
          pid := S.nextpid, state := .USED, trapframe := tf, pagetable := r } } ∧
        Procs own' m' S'.proc ∧ Local (Owner.Avail i r) own own' S.mem m' := by
  rw [allocproc, wp_bind, wp_get]
  generalize hfind : ((finRange NPROC).find? fun i => (S.proc i).state = .UNUSED) = slot
  cases slot with
  | none => exact ⟨S.mem, S.nextpid, .inl ⟨rfl, fun _ => .inl rfl, rfl, h, .refl⟩⟩
  | some i =>
    have hunused : (S.proc i).state = .UNUSED := by simpa using List.find?_some hfind
    obtain ⟨hp0, ht0, hsz0⟩ := (hok i).unused hunused
    have hfresh0 : ∀ p, (own p).Avail i 0 → own p = .free := by
      rintro p (hp | hp)
      · exact hp
      generalize ho : own p = o at hp
      cases hp with
      | table _ h0 | user _ h0 => exact absurd rfl h0
      | trapframe =>
        have hne := (h.isPool ho (by simp)).ne_zero
        exact absurd (((h.trapframe i p hne).mp ho).symm.trans ht0) hne
    have hfreed : ∀ q : Proc, q.freed = (S.proc i).freed → ∀ j, update (update S.proc i q) i
          (update S.proc i q i).freed j = S.proc j ∨
        (S.proc j).state = .UNUSED ∧ update (update S.proc i q) i
          (update S.proc i q i).freed j = (S.proc j).freed := by
      intro q hq j
      by_cases hj : j = i
      · subst hj
        exact .inr ⟨hunused, by simpa using hq⟩
      · exact .inl (by simp [hj])
    simp only [allocpid, wp_bind, wp_get, wp_set, wp_pure, wp_setProc, wp_onMem,
      update_self, update_idem]
    refine (h.heap.kalloc (o := .trapframe i) (by simp [Owner.Single]) (by simp)).mono ?_
    rintro tf m1 (⟨rfl, hheap1, hl1⟩ | ⟨hne, hfree, hpool, hheap1, hl1, -⟩)
    · have h1 := h.keep hheap1 hl1 (by simp) (by rintro o rfl; simp [Owner.Single]) (by simp)
      rw [if_pos rfl]
      refine (freeproc_undo ?_ (hl1.mono fun o ho => .inl ho) ?_).bind ?_
      · exact h1.updated rfl rfl ht0.symm
      · simpa only [update_self, hp0] using hfresh0
      · rintro _ S' ⟨m', rfl, h', hl'⟩
        refine ⟨m', _, .inl ⟨rfl, hfreed _ rfl, rfl, h', hl'⟩⟩
    -- what is in the slot, with either page table
    let q (r : Nat) : Proc := { S.proc i with
      pid := S.nextpid, state := .USED, trapframe := tf, pagetable := r }
    have h1 : Procs _ m1 (update S.proc i (q 0)) := h.addTrapframe hp0 ht0 rfl rfl hne hheap1 hl1
    have hl1' : ∀ r, Local (Owner.Avail i r) own (update own tf (.trapframe i)) S.mem m1 := by
      refine fun r => hl1.mono ?_
      rintro o (rfl | rfl)
      · exact .inl rfl
      · exact .inr .trapframe
    have hlt : tf < 2 ^ 56 := hpool.2.2.trans (by decide)
    rw [if_neg hne, wp_bind, wp_onMem]
    refine (procPagetable_spec hheap1 hlt).mono ?_
    rintro r m2 (⟨rfl, hheap2, hl2⟩ | ⟨hr, hrfree, own2, hheap2, himage, hl2⟩)
    · have h2 := h1.keep hheap2 hl2 (by simp) (by rintro o rfl; simp [Owner.Single]) (by simp)
      simp only [wp_bind, wp_setProc, update_self, update_idem, if_true]
      refine (freeproc_undo h2 ((hl1' _).trans (hl2.mono fun o ho => .inl ho)) ?_).mono ?_
      · simpa only [update_self] using hfresh0
      · rintro _ S' ⟨m', rfl, h', hl'⟩
        exact ⟨m', _, .inl ⟨rfl, hfreed _ rfl, rfl, h', hl'⟩⟩
    have hrne : r ≠ tf := by
      rintro rfl
      rw [update_self] at hrfree
      cases hrfree
    have h2 := h1.addTree (q := q r) (by rw [update_self]) hrfree hr hheap2 hl2 rfl
      (by rw [update_self]) (hsz0 ▸ himage)
    rw [update_idem] at h2
    simp only [wp_bind, wp_setProc, update_self, update_idem, if_neg hr]
    rw [update_of_ne hrne] at hrfree
    exact ⟨m2, _, .inr ⟨i, tf, r, own2, rfl, hunused, hne, hr, hfree, hrfree, rfl, h2,
      (hl1' r).trans (hl2.mono fun o ho => ho.avail hr)⟩⟩

/-- The user's memory has got another size; what remains of it is as it was, and what is new is
zero. -/
structure Resized (r sz sz' tf : Nat) (own own' : Nat → Owner) (m m' : Mem) : Prop where
  heap : Heap own' m'
  image : Image own' m' r (pages sz') tf
  loc : Local (Owner.Tree r) own own' m m'
  kept : ∀ va < pages sz * 4096, va < pages sz' * 4096 → ∀ pte, mapping m r va = some pte →
    mapping m' r va = some pte ∧ m'.page (PTE2PA pte / PGSIZE) = m.page (PTE2PA pte / PGSIZE)
  new : ∀ va, pages sz * 4096 ≤ va → va < pages sz' * 4096 → ∃ pte, mapping m' r va = some pte ∧
    m'.page (PTE2PA pte / PGSIZE) = fun _ => 0

variable {sz : Nat}

theorem Resized.refl (h : Heap own m) (hi : Image own m r (pages sz) tf) :
    Resized r sz sz tf own own m m :=
  ⟨h, hi, .refl, fun _ _ _ _ hpte => ⟨hpte, rfl⟩, fun _ hle hlt => absurd hle (Nat.not_le.mpr hlt)⟩

variable {sz' : Nat}

section

variable (h : Heap own m) (hi : Image own m r (pages sz) tf)
include h hi

theorem Resized.grown {xperm : Nat}
    (hg : Grown (Zeroed xperm) r (pages sz) (pages sz') own own' m m') :
    Resized r sz sz' tf own own' m m' := by
  have hmax := TRAPFRAME_lt
  have hbound := hg.space.bound
  refine ⟨h.grown hg, hi.grown hg, hg.grows.isLocal, ?_, ?_⟩
  · exact fun va hva _ pte hpte => hg.contents hi.space hva hpte
  · intro va hle hlt
    obtain ⟨pte, hpte, hnew, -⟩ := hg.new (va / 4096) (by omega) (by omega)
    rw [← mapping_page (by omega)] at hpte
    exact ⟨pte, hpte, hnew.2⟩

theorem Resized.shrunk (hle : pages sz' ≤ pages sz)
    (hs : Shrinks r (pages sz') (pages sz) true own own' m m') :
    Resized r sz sz' tf own own' m m' := by
  have hmax := TRAPFRAME_lt
  have hbound := hi.space.bound
  refine ⟨h.shrinks hs, hi.shrink hle hs, hs.isLocal, ?_, ?_⟩
  · intro va hva hva' pte hpte
    have hlook : lookup m' r va = lookup m r va := by
      rw [hs.lookup va (by omega), if_neg (by omega)]
    obtain ⟨pte', hpte', -, hown, -⟩ := hi.space.mapping_some hva
    rw [hpte] at hpte'
    cases hpte'
    refine ⟨(mapping_congr hlook).trans hpte, hs.frame _ (PTE2PA_aligned _) ?_ (by simp [hown])⟩
    rcases hs.owner (PTE2PA pte) with hsame | ⟨-, -, k, hk, hlo, -⟩
    · exact hsame
    · rw [hown] at hk
      cases hk
      omega
  · intro va hlo hlt
    omega

theorem growMem_spec {n : Int} (hlo : -2 ^ 31 ≤ n) (hhi : n < 2 ^ 31) :
    Wp E (growMem r sz n) m fun res m' => ∃ own', Resized r sz (res.getD sz) tf own own' m m' ∧
      (n < 0 → res ≠ none) ∧ ∀ sz', res = some sz' → (sz' : Int) = if 0 ≤ sz + n then sz + n else sz := by
  have hmax : TRAPFRAME < 2 ^ 39 := TRAPFRAME_lt
  have hbound := hi.space.bound
  have hsz : sz ≤ pages sz * 4096 := by
    rw [pages]
    omega
  rw [growMem]
  generalize hnew : (((sz : Int) + n) % 2 ^ 64).toNat = newsz
  by_cases hpos : 0 < n
  · have hval : (newsz : Int) = sz + n := by omega
    rw [if_pos hpos]
    refine (uvmalloc_spec hi.space h.kmem h.tables (by omega) (by decide)).bind ?_
    rintro res m' ⟨own', ⟨rfl, hg⟩ | ⟨rfl, hg⟩⟩
    · rw [if_neg (by omega), wp_pure]
      refine ⟨own', .grown h hi hg, by simp, ?_⟩
      intro sz' heq
      cases heq
      rw [hval, if_pos (by omega)]
    · rw [if_pos rfl, wp_pure]
      exact ⟨own', .grown h hi hg, by omega, by simp⟩
  rw [if_neg hpos]
  by_cases hneg : n < 0
  · rw [if_pos hneg, wp_bind]
    by_cases hle : 0 ≤ sz + n
    · have hval : (newsz : Int) = sz + n := by omega
      have hpages : pages newsz ≤ pages sz := Nat.div_le_div_right (by omega)
      refine (uvmdealloc_spec hi.space h.kmem h.tables (by omega)).mono ?_
      rintro _ m' ⟨rfl, own', hs, -⟩
      rw [wp_pure]
      refine ⟨own', .shrunk h hi hpages hs, by simp, ?_⟩
      intro sz' heq
      cases heq
      rw [hval, if_pos hle]
    -- the sum is below zero and wraps
    rw [uvmdealloc, if_pos (by omega), wp_pure, wp_pure]
    refine ⟨own, .refl h hi, by simp, ?_⟩
    intro sz' heq
    cases heq
    rw [if_neg hle]
  · rw [if_neg hneg, wp_pure]
    refine ⟨own, .refl h hi, by simp, ?_⟩
    intro sz' heq
    cases heq
    rw [if_pos (by omega)]
    omega

end

def Proc.withSz (p : Proc) (sz : Nat) : Proc := { p with sz := sz }

theorem growproc_spec {n : Int} (h : Procs own S.mem S.proc)
    (hi : (S.proc i).pagetable ≠ 0) (hlo : -2 ^ 31 ≤ n) (hhi : n < 2 ^ 31) :
    Wp E (growproc i n) S fun res S' => ∃ own' m' sz',
      S' = { S with mem := m', proc := update S.proc i ((S.proc i).withSz sz') } ∧
      Resized (S.proc i).pagetable (S.proc i).sz sz' (S.proc i).trapframe own own' S.mem m' ∧
      (n < 0 → res = true) ∧ (sz' : Int) = (if res = true ∧ 0 ≤ (S.proc i).sz + n then (S.proc i).sz + n
        else (S.proc i).sz) := by
  rw [growproc]
  simp only [wp_bind, wp_get, wp_onMem]
  refine (growMem_spec h.heap (h.image i hi) hlo hhi).mono ?_
  rintro res m' ⟨own', hr, hneg, hsz⟩
  cases res with
  | none =>
    refine ⟨own', m', (S.proc i).sz, ?_, hr, fun hn => absurd rfl (hneg hn), by simp⟩
    rw [Proc.withSz, update_eq_self]
  | some sz' =>
    refine ⟨own', m', sz', rfl, hr, fun _ => rfl, ?_⟩
    rw [hsz sz' rfl]
    simp

theorem Procs.resize (h : Procs own m proc) (hi : (proc i).pagetable ≠ 0) (hheap : Heap own' m')
    (himage : Image own' m' (proc i).pagetable (pages sz') (proc i).trapframe)
    (hl : Local (Owner.Tree (proc i).pagetable) own own' m m') :
    Procs own' m' (update proc i ((proc i).withSz sz')) := by
  refine h.replace hheap hl (fun h0 => by cases h0) ?_ (fun _ => himage) ?_ (fun _ _ _ => rfl) ?_ ?_
  · intro j hj o ho hof
    rcases ho.avail hi with rfl | ho
    · cases hof
    · exact h.disjoint hj ho hof
  · exact fun _ j hj heq => hj (h.inj i j hi heq.symm).symm
  · intro r path ht
    cases ht
    exact .inl rfl
  · intro p hp
    rw [hl.kept Owner.not_tree_trapframe]
    exact h.trapframe i p hp

omit [Machine] in
theorem Touches.setPage {pg : Page} (hp : p % PGSIZE = 0) (hM : M (own p)) :
    Touches M own m (m.setPage p pg) := by
  refine ⟨rfl, fun q hq hm => Mem.setPage_ne (div_ne_of_aligned hp hq ?_)⟩
  rintro rfl
  exact hm hM

omit [Machine] in
theorem Touches.setBytes {a : Nat} {bs : List UInt8} (hp : p % PGSIZE = 0) (ha : p ≤ a)
    (hlen : a + bs.length ≤ p + PGSIZE) (hM : M (own p)) : Touches M own m (m.setBytes a bs) := by
  refine ⟨rfl, fun q hq hm => (Stored.setBytes a).page fun j hj heq => hm ?_⟩
  have : q = p := by
    rw [PGSIZE] at *
    omega
  rwa [this]

theorem Procs.swapTree {own1 : Nat → Owner} {m1 m2 : Mem} (h : Procs own m proc)
    (hi : (proc i).pagetable ≠ 0) (hr0 : r ≠ 0) (hr : own r = .free)
    (hl1 : Local (Owner.Tree r) own own1 m m1) (ht : Touches (· = .trapframe i) own1 m1 m2)
    (hheap : Heap own' m') (hg : Gone (proc i).pagetable own1 own' m2 m') (hq : q.pagetable = r)
    (hqt : q.trapframe = (proc i).trapframe) (himage : Image own' m' r (pages q.sz) q.trapframe) :
    Procs own' m' (update proc i q) ∧
      Local (fun o => o.Avail i (proc i).pagetable ∨ o.Avail i r) own own' m m' := by
  have hl : Local (fun o => o.Avail i (proc i).pagetable ∨ o.Avail i r) own own' m m' := by
    refine ((hl1.mono fun o ho => .inr (ho.avail hr0)).trans (ht.isLocal.mono ?_)).trans
      (hg.loc.mono fun o ho => .inl (ho.avail hi))
    rintro o rfl
    exact .inl (.inr .trapframe)
  have hother : ∀ j, (proc j).pagetable ≠ r := fun j hj => h.ne_fresh (hj ▸ hr0) hr hj
  refine ⟨h.replace hheap hl ?_ ?_ (fun _ => hq ▸ himage) ?_ ?_ ?_ ?_, hl⟩
  · rintro ((h0 | h0) | (h0 | h0)) <;> cases h0
  · rintro j hj o ((rfl | ho) | (rfl | ho)) hof
    · cases hof
    · exact h.disjoint hj ho hof
    · cases hof
    · exact ho.disjoint hj (fun _ => hother j) hof
  · intro _ j _
    rw [hq]
    exact hother j
  · intro p path hp
    exact absurd (hp ▸ .table path) (hg.none p (by rw [hp]; simp))
  · rintro r' path ((h0 | h0) | (h0 | h0))
    · cases h0
    · cases h0
      exact .inl rfl
    · cases h0
    · cases h0
      exact .inr hq.symm
  · intro p hp
    rw [hqt, hg.loc.kept Owner.not_tree_trapframe, hl1.kept Owner.not_tree_trapframe]
    exact h.trapframe i p hp

def Proc.running (p : Proc) (path : List UInt8) (l : Loaded) : Proc := { p with
  name := safestrcpy p.name (lastElem path path) Proc.nameSize, pagetable := l.pagetable, sz := l.sz }

/-- The registers that `exec` sets in the trapframe at `tf`. -/
def Mem.setRegs (m : Mem) (tf : Nat) (l : Loaded) : Mem :=
  ((m.setWord tf Trapframe.a1 l.sp).setWord tf Trapframe.epc l.entry).setWord tf Trapframe.sp l.sp

/-- Nothing has changed but free pages. -/
structure Undone (own : Nat → Owner) (S S' : Sys) : Prop where
  sys : S' = { S with mem := S'.mem }
  procs : Procs own S'.mem S'.proc
  loc : Local (· = .free) own own S.mem S'.mem

/-- The process has got the address space `l`, which is as it was made in `m`. -/
structure Replaced (i : Fin NPROC) (path : List UInt8) (l : Loaded) (m : Mem)
    (own own' : Nat → Owner) (S S' : Sys) : Prop where
  root : l.pagetable ≠ 0
  sys : S' = { S with
    mem := S'.mem, proc := update S.proc i ((S.proc i).running path l) }
  procs : Procs own' S'.mem S'.proc
  loc : Local (fun o => o.Avail i (S.proc i).pagetable ∨ o.Avail i l.pagetable) own own'
    S.mem S'.mem
  view : ∀ va < TRAPFRAME, view S'.mem l.pagetable va = view m l.pagetable va
  frame : S'.mem.page ((S.proc i).trapframe / PGSIZE) =
    (m.setRegs (S.proc i).trapframe l).page ((S.proc i).trapframe / PGSIZE)

theorem Replaced.proc_self {path : List UInt8} {l : Loaded} {S' : Sys}
    (h : Replaced i path l m own own' S S') : S'.proc i = (S.proc i).running path l := by
  rw [h.sys]
  exact update_self ..

/-- `exec` replaces the address space by the one it has made, or leaves everything as it is. -/
theorem exec_spec {path : List UInt8} {file : Option (List UInt8)} {argv : List (List UInt8)}
    (h : Procs own S.mem S.proc) (hi : (S.proc i).pagetable ≠ 0) (ht : (S.proc i).trapframe ≠ 0) :
    Wp E (exec i path file argv) S fun res S' => ∃ loaded m1,
      execImage (S.proc i).trapframe file argv S.mem = .ok (loaded, m1) ∧
      (loaded = none ∧ res = none ∧ Undone own S S' ∨
        ∃ l own', loaded = some l ∧ res = some l.argc ∧ Replaced i path l m1 own own' S S') := by
  have hown := (h.trapframe i _ ht).mpr rfl
  have hpool := h.isPool hown (by simp)
  rw [exec]
  simp only [wp_bind, wp_get, wp_onMem]
  refine (execImage_spec h.heap (hpool.2.2.trans (by decide))).remember.mono ?_
  rintro (_ | l) m1 ⟨hrun, hdone, -⟩
  · obtain ⟨hheap, hl⟩ := hdone
    refine ⟨none, m1, hrun, .inl ⟨rfl, rfl, rfl, ?_, hl⟩⟩
    exact h.keep hheap hl (by simp) (by rintro o rfl; simp [Owner.Single]) (by simp)
  obtain ⟨hr0, hr, own1, hb⟩ := hdone
  have hne : (S.proc i).pagetable ≠ l.pagetable := h.ne_fresh hi hr
  have hown1 : own1 (S.proc i).trapframe = .trapframe i :=
    (hb.loc.kept Owner.not_tree_trapframe).mpr hown
  have hold := h.image_other hb.loc (fun o ho => ho.not_of hne) hi
  have hword : ∀ {m k v}, Touches (· = .trapframe i) own1 m
      (m.setWord (S.proc i).trapframe k v) := .setPage hpool.1 hown1
  simp only [wp_bind, wp_onMem, wp_modify, wp_setProc, update_self, update_idem]
  have htouch : Touches (· = .trapframe i) own1 m1 (m1.setRegs (S.proc i).trapframe l) :=
    hword.trans (hword.trans hword)
  have hdata : ∀ o, o = Owner.trapframe i → o.Data := by
    rintro o rfl
    simp [Owner.Data]
  have hheap := hb.heap.touches htouch hdata
  refine (procFreepagetable_spec hheap (hold.touches htouch hb.heap.tables hdata)).mono ?_
  rintro _ m' ⟨own', hg⟩
  have htree : ∀ path, ¬ Owner.Tree (S.proc i).pagetable (.table l.pagetable path) := fun path ht =>
    ht.not_of (i := i) hne.symm (.table path hr0)
  have huser : ∀ k, ¬ Owner.Tree (S.proc i).pagetable (.user l.pagetable k) := fun k ht =>
    ht.not_of (i := i) hne.symm (.user k hr0)
  have himage := hb.image.touches htouch hb.heap.tables hdata
  obtain ⟨h', hl'⟩ := h.swapTree hi hr0 hr hb.loc htouch (hheap.gone hg) hg
    (q := (S.proc i).running path l) rfl rfl (himage.other hheap.tables hg.loc htree huser)
  refine ⟨some l, m1, hrun, .inr ⟨l, own', rfl, rfl, hr0, rfl, h', hl', fun va hva => ?_, ?_⟩⟩
  · exact (himage.space.view_other hheap.tables hg.loc htree huser hva).trans
      (hb.image.space.view_other hb.heap.tables htouch.isLocal (by simp) (by simp) hva)
  · refine hg.loc.frame _ hpool.1 ?_
    rw [hown1]
    exact Owner.not_tree_trapframe

/-- The owners with some free pages in use by the kernel for the moment. -/
def holding (own : Nat → Owner) (ps : List Nat) (p : Nat) : Owner := if p ∈ ps then .held else own p

/-- The pages `ps` have been taken. -/
structure Holding (own : Nat → Owner) (m m' : Mem) (ps : List Nat) : Prop where
  nodup : ps.Nodup
  fresh : ∀ p ∈ ps, own p = .free
  heap : Heap (holding own ps) m'
  loc : Local (fun o => o = .free ∨ o = .held) own (holding own ps) m m'

theorem Holding.nil (h : Heap own m) : Holding own m m [] := by
  have hown : holding own [] = own := by
    funext p
    simp [holding]
  refine ⟨.nil, by simp, ?_, ?_⟩
  · rwa [hown]
  · rw [hown]
    exact .refl

variable {ps : List Nat}

theorem Holding.touches (h : Holding own m m' ps)
    (ht : Touches (· = .held) (holding own ps) m' m'') : Holding own m m'' ps := by
  refine ⟨h.nodup, h.fresh, h.heap.touches ht ?_, h.loc.trans (ht.isLocal.mono fun o => .inr)⟩
  rintro o rfl
  simp [Owner.Data]

theorem Holding.kalloc (h : Holding own m m' ps) :
    Wp E kalloc m' fun p m'' => p = 0 ∧ Holding own m m'' ps ∨
      p ≠ 0 ∧ Pool p ∧ Holding own m m'' (ps ++ [p]) := by
  refine (h.heap.kalloc (o := .held) (by simp [Owner.Single]) (by simp)).mono ?_
  rintro p m'' (⟨rfl, hheap, hl⟩ | ⟨hne, hfree, hpool, hheap, hl, -⟩)
  · exact .inl ⟨rfl, h.nodup, h.fresh, hheap, h.loc.trans (hl.mono fun o => .inl)⟩
  have hp : p ∉ ps := by
    intro hp
    rw [holding, if_pos hp] at hfree
    cases hfree
  rw [holding, if_neg hp] at hfree
  have hown : update (holding own ps) p .held = holding own (ps ++ [p]) := by
    funext q
    by_cases hq : q = p
    all_goals simp [hq, holding]
  rw [hown] at hheap hl
  refine .inr ⟨hne, hpool, ?_, ?_, hheap, h.loc.trans hl⟩
  · rw [← concat_eq_append]
    exact h.nodup.concat hp
  · simp only [mem_append, mem_singleton]
    rintro q (hq | rfl)
    · exact h.fresh q hq
    · exact hfree

theorem fetchaddr_spec {n addr : Nat} (h : Image own m r n tf) (ht : Tables own m) :
    Wp E (fetchaddr r sz addr) m fun _ m' => m' = m := by
  rw [fetchaddr, wp_ite]
  split_ifs
  · rfl
  · rw [wp_bind]
    exact (h.copyin ht).mono fun _ _ heq => heq

theorem fetchArgv_spec {n uargv count : Nat} {argv : List (Nat × List UInt8)}
    (hi : Image own m r n tf) (ht : Tables own m) (h : Holding own m m' (argv.map Prod.fst)) :
    Wp E (fetchArgv r sz uargv count argv) m' fun res m'' =>
      Holding own m m'' (res.2.map Prod.fst) := by
  induction count generalizing m' argv with
  | zero => exact h
  | succ count ih =>
    have himage : ∀ {m' ps}, Holding own m m' ps → Image (holding own ps) m' r n tf :=
      fun h => hi.other ht h.loc (by simp) (by simp)
    rw [fetchArgv]
    refine (fetchaddr_spec (himage h) h.heap.tables).bind ?_
    rintro uarg _ rfl
    cases uarg with
    | none => exact h
    | some uarg =>
      simp only [wp_ite, wp_pure]
      split_ifs
      · exact h
      refine h.kalloc.bind ?_
      rintro page m1 (⟨rfl, h1⟩ | ⟨hne, hpool, h1⟩)
      · rw [if_pos rfl, wp_pure]
        exact h1
      rw [if_neg hne]
      refine ((himage h1).copyinstr h1.heap.tables).bind ?_
      rintro str _ ⟨rfl, hlen⟩
      cases str with
      | none => simpa using h1
      | some str =>
        simp only [wp_bind, wp_modify]
        refine ih ?_
        rw [map_append]
        exact h1.touches (.setBytes hpool.1 (Nat.le_refl _)
          (Nat.add_le_add_left (hlen str rfl) _) (by simp [holding]))

theorem kfreeAll_spec (h : Heap own m) (hps : ∀ p ∈ ps, own p = .held ∧ Pool p)
    (hnodup : ps.Nodup) :
    Wp E (kfreeAll ps) m fun _ m' => ∃ own', Heap own' m' ∧
      (∀ p, own' p = if p ∈ ps then .free else own p) ∧
      Local (fun o => o = .free ∨ o = .held) own own' m m' := by
  induction ps generalizing own m with
  | nil => exact ⟨own, h, by simp, .refl⟩
  | cons p ps ih =>
    obtain ⟨hp, hnodup⟩ := List.nodup_cons.mp hnodup
    obtain ⟨hheld, hpool⟩ := hps p (.head _)
    rw [kfreeAll]
    refine (h.kfree hpool hheld (by simp [Owner.Single]) (by simp)).bind ?_
    rintro _ m1 ⟨h1, hl1, -⟩
    have hne : ∀ q ∈ ps, q ≠ p := fun q hq heq => hp (heq ▸ hq)
    refine (ih h1 (fun q hq => ?_) hnodup).mono ?_
    · rw [update_of_ne (hne q hq)]
      exact hps q (.tail _ hq)
    rintro _ m' ⟨own', h', hown, hl'⟩
    refine ⟨own', h', fun q => ?_, hl1.trans hl'⟩
    rw [hown]
    by_cases hq : q = p
    · simp [hq]
    · simp [hq]

theorem Holding.release {own1 : Nat → Owner} {m1 m2 : Mem} (h : Holding own m m1 ps)
    (hno : ∀ p, own p ≠ .held) (hfree : M .free) (hheld : ¬ M .held)
    (hl : Local M (holding own ps) own1 m1 m2) (hpool : ∀ p ∈ ps, Pool p) (h1 : Heap own1 m2) :
    Wp E (kfreeAll ps) m2 fun _ m' => ∃ own', Heap own' m' ∧ Local M own own' m m' ∧
      Local (fun o => o = .free ∨ o = .held) own1 own' m2 m' := by
  have hps : ∀ p ∈ ps, own1 p = .held := by
    intro p hp
    refine (hl.kept hheld).mpr ?_
    rw [holding, if_pos hp]
  refine (kfreeAll_spec h1 (fun p hp => ⟨hps p hp, hpool p hp⟩) h.nodup).mono ?_
  rintro _ m' ⟨own', h', hown, hl'⟩
  refine ⟨own', h', ⟨fun p => ?_, fun q hq hm => ?_⟩, hl'⟩
  · rw [hown]
    split_ifs with hp
    · exact .inl (h.fresh p hp).symm
    · have := hl.owner p
      rwa [holding, if_neg hp] at this
  have hqps : q ∉ ps := fun hp => hm (h.fresh q hp ▸ hfree)
  have hsame : holding own ps q = own q := if_neg hqps
  have hnot : ¬ (own q = .free ∨ own q = .held) := by
    rintro (h0 | h0)
    · exact hm (h0 ▸ hfree)
    · exact hno q h0
  rw [hl'.frame q hq, hl.frame q hq (by rwa [hsame]), h.loc.frame q hq hnot]
  rwa [(hl.kept hm).mpr hsame]

omit [Machine] in
theorem Local.eq_of_free (h : Local (· = .free) own own' m m') : own' = own := by
  funext p
  rcases h.owner p with hp | ⟨hp, hp'⟩
  · exact hp
  · rw [hp, hp']

/-- `sys_exec` gives the pages for the arguments back. -/
theorem sysExec_spec {path file : Option (List UInt8)} {uargv : Nat} (h : Procs own S.mem S.proc)
    (hno : ∀ p, own p ≠ .held) (hi : (S.proc i).pagetable ≠ 0) (ht : (S.proc i).trapframe ≠ 0) :
    Wp E (sysExec i path file uargv) S fun res S' => res = none ∧ Undone own S S' ∨
      ∃ path l m1 own', res = some l.argc ∧ Replaced i path l m1 own own' S S' := by
  have hkeep : ∀ {own own' m m' proc}, Procs own m proc → Heap own' m' →
      Local (fun o => o = .free ∨ o = .held) own own' m m' → Procs own' m' proc := by
    intro own own' m m' proc h hheap hl
    refine h.keep hheap hl (by simp) ?_ (by simp)
    rintro o (rfl | rfl) <;> simp [Owner.Single]
  cases path with
  | none => exact .inl ⟨rfl, rfl, h, .refl⟩
  | some path =>
    rw [sysExec]
    simp only [wp_bind, wp_get, wp_onMem]
    refine (fetchArgv_spec (h.image i hi) h.heap.tables (.nil h.heap)).mono ?_
    intro args m1 h1
    have hp1 := hkeep h h1.heap h1.loc
    have hpool : ∀ p ∈ args.2.map Prod.fst, Pool p := fun p hp => h.isPool (h1.fresh p hp) (by simp)
    -- what is left to do after a failure
    have hundo : ∀ {m2}, Procs (holding own (args.2.map Prod.fst)) m2 S.proc →
        Local (· = .free) (holding own (args.2.map Prod.fst)) (holding own (args.2.map Prod.fst))
          m1 m2 → Wp E (kfreeAll (args.2.map Prod.fst)) m2 fun _ m' =>
            Undone own S { S with mem := m' } := by
      intro m2 hp2 hl2
      refine (h1.release (M := (· = .free)) hno rfl (by simp) hl2 hpool hp2.heap).mono ?_
      rintro _ m' ⟨own', hheap, hl, hl'⟩
      obtain rfl := hl.eq_of_free
      exact ⟨rfl, hkeep hp2 hheap hl', hl⟩
    rw [wp_ite]
    split_ifs
    · rw [wp_bind, wp_onMem]
      exact (hundo hp1 .refl).mono fun _ m' hu => .inl ⟨rfl, hu⟩
    refine (exec_spec (S := { S with mem := m1 }) hp1 hi ht).bind ?_
    rintro _ S2 ⟨_, m2, -, ⟨-, rfl, hu⟩ | ⟨l, own1, -, rfl, hr⟩⟩
    · rw [wp_bind, wp_onMem, hu.sys]
      have hproc : S2.proc = S.proc := by rw [hu.sys]
      exact (hundo (hproc ▸ hu.procs) hu.loc).mono fun _ m' hu => .inl ⟨rfl, hu⟩
    rw [wp_bind, wp_onMem]
    refine (h1.release hno (.inl (.inl rfl)) ?_ hr.loc hpool hr.procs.heap).mono ?_
    · rintro ((h0 | h0) | (h0 | h0)) <;> cases h0
    rintro _ m' ⟨own', hheap, hl, hl'⟩
    have hproc := hr.proc_self
    have hown := (hr.procs.trapframe i (S.proc i).trapframe ht).mpr (by rw [hproc]; rfl)
    have htf := hr.procs.isPool hown (by simp)
    have himage := hr.procs.image i (by rw [hproc]; exact hr.root)
    rw [hproc] at himage
    refine .inr ⟨path, l, m2, own', rfl, hr.root, ?_, hkeep hr.procs hheap hl', hl, ?_, ?_⟩
    · rw [hr.sys]
    · intro va hva
      exact (himage.space.view_other hr.procs.heap.tables hl' (by simp) (by simp) hva).trans
        (hr.view va hva)
    · refine (hl'.frame _ htf.1 ?_).trans hr.frame
      rw [hown]
      simp

end

end Xv6.Vm
