import Xv6.Kernel.Vm.Calls

namespace Xv6.Vm

open ByteCodec Hoare Function

variable [Machine] {own own' : Nat → Owner} {m m' : Mem} {S S' : Sys} {i : Fin NPROC} {r : Nat}
  {E : Stop → Prop} {B : List Nat} {proc : Fin NPROC → Proc}

/-- The pages that the kernel takes at boot are its own from then on. -/
theorem bootAlloc_spec {n : Nat} (h : Procs own m proc) (hheld : ∀ p, own p ≠ .held) :
    Wp E (bootAlloc n) m fun res m' => ∃ own', Procs own' m' proc ∧ (∀ p, own' p ≠ .held) ∧
      (∀ p, own' p = .pipe ↔ own p = .pipe) ∧
      ∀ ps, res = some ps → ∀ p, own' p = .boot ↔ p ∈ ps ∨ own p = .boot := by
  induction n generalizing own m with
  | zero =>
    refine ⟨own, h, hheld, fun _ => Iff.rfl, ?_⟩
    intro ps hps p
    cases hps
    simp
  | succ n ih =>
    rw [bootAlloc]
    refine (h.heap.kalloc (o := .boot) (by simp [Owner.Single]) (by simp)).bind ?_
    rintro q m1 (⟨rfl, hheap, hl⟩ | ⟨hne, hfree, -, hheap, hl, -⟩)
    · rw [if_pos rfl]
      refine ⟨own, h.keep hheap hl (by simp) (by simp [Owner.Single]) (by simp), hheld,
        fun _ => Iff.rfl, ?_⟩
      intro ps hps
      cases hps
    rw [if_neg hne, wp_bind]
    have h1 := h.keep hheap hl (by simp) (by simp [Owner.Single]) (by simp)
    have hheld1 : ∀ p, update own q .boot p ≠ .held := by
      intro p
      rw [update_apply]
      split_ifs
      · simp
      · exact hheld p
    refine (ih h1 hheld1).mono ?_
    rintro res m2 ⟨own2, h2, hheld2, hpipe2, hboot2⟩
    refine ⟨own2, h2, hheld2, fun p => (hpipe2 p).trans (hl.kept (by simp)), ?_⟩
    intro ps hps p
    obtain ⟨ps', hps', rfl⟩ := Option.map_eq_some_iff.mp hps
    rw [hboot2 ps' hps', update_apply, List.mem_cons]
    split_ifs with hp
    · simp [hp]
    · simp [hp]

theorem uvmfirst_spec {tf : Nat} {src : List UInt8} (hheap : Heap own m)
    (himage : Image own m r 0 tf) :
    Wp Any (uvmfirst r src) m fun done m' => done = true → ∃ own',
      Heap own' m' ∧ Image own' m' r 1 tf ∧ Local (Owner.Tree r) own own' m m' := by
  rw [uvmfirst]
  by_cases hlen : PGSIZE ≤ src.length
  · simp only [if_pos hlen]
    exact trivial
  simp only [if_neg hlen, wp_bind]
  refine (kalloc_spec hheap.kmem).mono ?_
  rintro mem m1 (⟨rfl, -, -⟩ | ⟨hne, hfree, hpool, hk1, hframe⟩)
  · rw [if_pos rfl]
    intro h
    cases h
  rw [if_neg hne]
  simp only [wp_bind, wp_modify, wp_pure]
  have hg0 : Grown (fun _ _ _ => True) r 0 0 own own m m :=
    .refl himage.space hheap.kmem hheap.tables
  refine (hg0.mappages hfree hpool (hk1.setPage hpool.1 (by simp))
    (.setPage hpool.1 hframe) (by decide) (by decide) trivial).mono ?_
  intro done m3 hdone hd
  subst hd
  obtain ⟨own3, hg, hown⟩ := hdone
  have ht : Touches (Owner.User r) own3 m3 (m3.setBytes mem src) :=
    .setBytes hpool.1 (Nat.le_refl _) (by omega) ⟨0, hown⟩
  have hheap3 := hheap.grown hg
  refine ⟨own3, hheap3.touches ht fun o => Owner.User.data,
    (himage.grown hg).touches ht hheap3.tables fun o => Owner.User.data,
    hg.grows.isLocal.trans (ht.isLocal.mono ?_)⟩
  rintro _ ⟨k, rfl⟩
  exact .user k

theorem userinit_spec {initcode : List UInt8} {root : Nat} (h : Shape B own S) :
    Wp Any (userinit initcode root) S fun done S' =>
      done = true → ∃ own', Shape B own' S' := by
  rw [userinit]
  refine (allocproc_spec h.sound.procs h.ok).bind ?_
  rintro _ S1 ⟨m1, pid, ⟨rfl, -⟩ | ⟨i, tf, r, own1, rfl, hunused, htf, hr, -, -, rfl, hp1, hl1⟩⟩
  · intro hd
    cases hd
  generalize hP : ({ S.proc i with
    pid := S.nextpid, state := .USED, trapframe := tf, pagetable := r } : Proc) = P at hp1 ⊢
  replace hp1 : Procs own1 m1 (update S.proc i P) := hp1
  have hPr : P.pagetable = r := by rw [← hP]
  have hPt : P.trapframe = tf := by rw [← hP]
  have hPsz : P.sz = 0 := by rw [← hP, ← ((h.ok i).unused hunused).2.2]
  have himage := hp1.image i (by rw [update_self, hPr]; exact hr)
  rw [update_self, hPr, hPt, hPsz] at himage
  simp only [wp_bind, wp_get, wp_modify, wp_onMem, update_self, hPr]
  refine (uvmfirst_spec hp1.heap himage).mono ?_
  intro done m2 hdone
  simp only [wp_setProc, idup, wp_modify, wp_pure, update_self, update_idem, hPt]
  intro hd
  obtain ⟨own2, hheap2, himage2, hl2⟩ := hdone hd
  have hp2 : Procs own2 m2 (update (update S.proc i P) i
      ((update S.proc i P i).withSz PGSIZE)) := by
    refine hp1.resize ?_ hheap2 ?_ ?_
    · rw [update_self, hPr]
      exact hr
    · rw [update_self, hPr, hPt]
      exact himage2
    · rw [update_self, hPr]
      exact hl2
  rw [update_self, update_idem] at hp2
  have hown : own2 tf = .trapframe i := (hp2.trapframe i tf htf).mpr (by
    rw [update_self]
    exact hPt)
  have hpool := hp2.isPool hown (by simp)
  have ht : Touches (· = .trapframe i) own2 m2
      ((m2.setWord tf Trapframe.epc 0).setWord tf Trapframe.sp PGSIZE) :=
    (Touches.setPage hpool.1 hown).trans (.setPage hpool.1 hown)
  have hdata : ∀ o, o = Owner.trapframe i → o.Data := by
    rintro o rfl
    simp [Owner.Data]
  have hl : Local (Owner.Avail i r) own own2 S.mem
      ((m2.setWord tf Trapframe.epc 0).setWord tf Trapframe.sp PGSIZE) := by
    refine (hl1.trans (hl2.mono fun o ho => ho.avail hr)).trans (ht.isLocal.mono ?_)
    rintro o rfl
    exact .inr .trapframe
  have hp3 := (hp2.touches ht hdata).updated (i := i) (q := { P with
    trapframe := tf, sz := PGSIZE, cwd := some root, state := .RUNNABLE
    name := safestrcpy P.name initName Proc.nameSize })
    (by rw [update_self]; rfl) (by rw [update_self]; rfl)
    (by rw [update_self]; exact hPt.symm)
  rw [update_idem] at hp3
  refine ⟨own2, h.step (h.sound.other hp3 hl Owner.not_avail_pipe (refs_update ?_)) ?_ hl
    Owner.not_avail_boot.1 Owner.not_avail_boot.2⟩
  · rw [← hP]
  · refine Proc.Ok.updated h.ok (.of_live (by simp) (by simp) ?_ ?_)
    · rw [hPr]
      exact hr
    · exact htf

theorem procs_start (h : Kmem (fun p => if Pool p then .free else .none) m) :
    Procs (fun p => if Pool p then .free else .none) m fun _ => .unused := by
  have htable : ∀ {p r path}, (if Pool p then Owner.free else .none) ≠ .table r path := by
    intro p r path
    split_ifs <;> simp
  have huser : ∀ {p r k}, (if Pool p then Owner.free else .none) ≠ .user r k := by
    intro p r k
    split_ifs <;> simp
  refine ⟨⟨h, ⟨fun hp => ?_, fun hp => ?_, fun hp => ?_, fun hp => ?_⟩, fun hp => ?_⟩, fun p => ?_,
    fun i hi => absurd rfl hi, fun i j hi => absurd rfl hi, fun hp => ?_, fun i p hp => ?_⟩
  · exact absurd hp htable
  · exact absurd hp htable
  · exact absurd hp htable
  · exact absurd hp htable
  · exact absurd hp huser
  · split_ifs with hpool <;> simp [hpool]
  · exact absurd hp htable
  · split_ifs <;> simp [Proc.unused, Ne.symm hp]

theorem boot_spec {n root : Nat} {initcode : List UInt8} {page : Nat → Page} :
    Wp Any (boot n initcode root) (Sys.start page) fun res S =>
      ∀ B, res = some B → ∃ own, Shape B own S := by
  rw [boot]
  simp only [wp_bind, wp_onMem]
  refine (kinit_spec rfl).mono ?_
  intro _ m1 hk
  refine (bootAlloc_spec (procs_start hk) ?_).mono ?_
  · intro p
    split_ifs <;> simp
  rintro res m2 ⟨own, hp, hheld, hpipe, hboot⟩
  cases res with
  | none =>
    intro B hB
    cases hB
  | some ps =>
    have hshape : Shape ps own { Sys.start page with mem := m2 } := by
      refine ⟨⟨hp, ?_⟩, fun i => ⟨fun _ => ⟨rfl, rfl, rfl⟩, absurd rfl, fun _ => ⟨fun _ => rfl, rfl⟩⟩,
        fun p => ?_, hheld⟩
      · have hnone : ∀ p, own p ≠ .pipe := by
          intro p
          rw [ne_eq, hpipe]
          split_ifs <;> simp
        refine ⟨fun f => (refs_none fun _ _ => rfl).symm, fun _ _ => rfl, fun p => ?_, ?_,
          fun p w hp => absurd hp (hnone p)⟩
        · simp [hnone, Sys.start, File.none]
        · intro f g hf
          cases hf
      · rw [hboot ps rfl]
        split_ifs <;> simp
    refine (userinit_spec hshape).bind ?_
    intro done S hdone B hB
    cases done with
    | false => cases hB
    | true =>
      cases hB
      exact hdone rfl

theorem exit_init (h : i = S.initproc) {status : Nat} :
    Vm.exit i status S = .error (.panic .initExiting) := by
  rw [Vm.exit, run_get_bind, if_pos h]
  rfl

theorem Shape.of_step {l : Fin NPROC × Call} (h : Shape B own S) (hl : Step S l S') :
    Called B l.1 own S S' := by
  obtain ⟨hi, hcall⟩ := hl
  refine (h.call (E := fun _ => False) hi l.2 fun status hc heq => ?_).result hcall
  rw [hc, Vm.call, exit_init heq] at hcall
  cases hcall

theorem Shape.withFails (h : Shape B own S) (fails : List Bool) :
    Shape B own { S with mem := { S.mem with fails := fails } } := by
  have ht : Touches (fun _ => False) own S.mem { S.mem with fails := fails } :=
    ⟨rfl, fun _ _ _ => rfl⟩
  exact h.step (h.sound.touches ht (fun _ => False.elim) id) h.ok ht.isLocal id id

theorem Reachable.shape (h : Reachable B S) : ∃ own, Shape B own S := by
  induction h with
  | @boot page n initcode root S fails h =>
    obtain ⟨own, hs⟩ := boot_spec.result h B rfl
    exact ⟨own, hs.withFails fails⟩
  | step h hl ih =>
    obtain ⟨own, hs⟩ := ih
    obtain ⟨own', hs', -⟩ := hs.of_step hl
    exact ⟨own', hs'⟩

end Xv6.Vm
