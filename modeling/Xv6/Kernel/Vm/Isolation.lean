import Xv6.Kernel.Vm.Conserve

namespace Xv6.Vm

open Hoare Function

/-- The address space of a process is as it was: the page table, what there is in the pages, and the
trapframe. -/
structure SameSpace (S S' : Sys) (j : Fin NPROC) : Prop where
  pagetable : (S'.proc j).pagetable = (S.proc j).pagetable
  sz : (S'.proc j).sz = (S.proc j).sz
  trapframe : (S'.proc j).trapframe = (S.proc j).trapframe
  mapping : ∀ va < 2 ^ 39, mapping S'.mem (S'.proc j).pagetable va =
    mapping S.mem (S.proc j).pagetable va
  view : ∀ va < TRAPFRAME, view S'.mem (S'.proc j).pagetable va =
    view S.mem (S.proc j).pagetable va
  frame : S'.mem.page ((S'.proc j).trapframe / PGSIZE) = S.mem.page ((S.proc j).trapframe / PGSIZE)

/-- The shape of an address space. All leaves are at the lowest level: the pages up to the size, the
trampoline and the trapframe. -/
structure AddressSpace (s : Mem) (p : Proc) : Prop where
  bound : PGROUNDUP p.sz ≤ TRAPFRAME
  mapped : ∀ va < 2 ^ 39, (mapping s p.pagetable va).isSome ↔ va < PGROUNDUP p.sz ∨
    va / PGSIZE = TRAMPOLINE / PGSIZE ∨ va / PGSIZE = TRAPFRAME / PGSIZE
  leaf : ∀ va < 2 ^ 39, ∀ pte, mapping s p.pagetable va = some pte →
    Flag pte (PTE_R ||| PTE_W ||| PTE_X)
  kernel : ∀ va < 2 ^ 39, ∀ pte, PGROUNDUP p.sz ≤ va → mapping s p.pagetable va = some pte →
    ¬ Flag pte PTE_U
  upper : ∀ path q i, path.length < 2 → (∀ ix ∈ path, ix < 512) → i < 512 →
    node s p.pagetable path = some q → Flag (s.word q i) PTE_V →
    ¬ Flag (s.word q i) (PTE_R ||| PTE_W ||| PTE_X)

section

variable [Machine] {own own' : Nat → Owner} {m m' : Mem} {S S' : Sys} {i j : Fin NPROC}
  {r n p tf va : Nat} {B : List Nat} {M : Owner → Prop}

theorem Spared.same (h : Spared own own' j S S') (hs : Shape B own S)
    (hj : (S.proc j).state ≠ .UNUSED) : SameSpace S S' j := by
  obtain ⟨M, hl, hM⟩ := h.loc
  obtain ⟨hpt, hsz, htf⟩ := h.proc
  have hlive := (hs.ok j).live hj
  have himage := hs.sound.procs.image j hlive.1
  have hmap : ∀ va, mapping S'.mem (S.proc j).pagetable va =
      mapping S.mem (S.proc j).pagetable va := fun va =>
    hl.mapping hs.sound.procs.heap.tables himage.space.root (fun path => hM _ (.table path hlive.1)) va
  refine ⟨hpt, hsz, htf, ?_, ?_, ?_⟩
  · intro va _
    rw [hpt, hmap]
  · intro va hva
    rw [hpt]
    exact himage.space.view_other hs.sound.procs.heap.tables hl (fun path => hM _ (.table path hlive.1))
      (fun k => hM _ (.user k hlive.1)) hva
  · have hown := (hs.sound.procs.trapframe j _ hlive.2).mpr rfl
    rw [htf]
    exact hl.frame _ (hs.sound.procs.isPool hown (by simp)).1 (by rw [hown]; exact hM _ .trapframe)

omit [Machine] in
theorem flag_leaf {pte : Nat} (h : Flag pte PTE_R) : Flag pte (PTE_R ||| PTE_W ||| PTE_X) := by
  intro h0
  have hand : pte &&& PTE_R = pte &&& (PTE_R ||| PTE_W ||| PTE_X) &&& PTE_R := by
    rw [Nat.and_assoc]
    rfl
  rw [Flag, hand, h0] at h
  exact h (Nat.zero_and _)

theorem Image.addressSpace {q : Proc} (h : Image own m q.pagetable (pages q.sz) q.trapframe)
    (ht : Tables own m) : AddressSpace m q := by
  have hbound := h.space.bound
  have hnum := top_pages
  have hsz : q.sz ≤ pages q.sz * 4096 := by
    rw [pages]
    omega
  have hround : PGROUNDUP q.sz = pages q.sz * 4096 := PGROUNDUP_pages (by omega)
  -- an address above the pages of the user is in one of the two last pages
  have hlast : ∀ va < 2 ^ 39, TRAPFRAME ≤ va → ∀ pte, mapping m q.pagetable va = some pte →
      va < MAXVA ∧ Flag pte PTE_R ∧
        (va / PGSIZE = TRAMPOLINE / PGSIZE ∨ va / PGSIZE = TRAPFRAME / PGSIZE) := by
    intro va hva hle pte hpte
    have hlt : va < MAXVA := by
      by_contra hge
      rw [h.above va (Nat.not_lt.mp hge) hva] at hpte
      cases hpte
    have hpage : va / 4096 * 4096 = TRAMPOLINE ∨ va / 4096 * 4096 = TRAPFRAME := by omega
    rw [mapping_page hva] at hpte
    rw [PGSIZE]
    rcases hpage with hpage | hpage
    all_goals
      first | rw [hpage, h.trampoline] at hpte | rw [hpage, h.trapframe] at hpte
      cases hpte
      exact ⟨hlt, (flag_entry (k := 1) (by decide) (by decide) (by decide)).mpr (by decide), by omega⟩
  refine ⟨by rwa [hround], ?_, ?_, ?_, ?_⟩
  · intro va hva
    rw [hround]
    by_cases hlt : va < TRAPFRAME
    · rw [h.space.isSome_iff hlt, PGSIZE]
      omega
    constructor
    · intro hsome
      obtain ⟨pte, hpte⟩ := Option.isSome_iff_exists.mp hsome
      exact .inr (hlast va hva (Nat.not_lt.mp hlt) pte hpte).2.2
    rintro (hin | hin | hin)
    · omega
    · have hpage : va / 4096 * 4096 = TRAMPOLINE := by
        rw [PGSIZE] at hin
        omega
      rw [mapping_page hva, hpage, h.trampoline]
      rfl
    · have hpage : va / 4096 * 4096 = TRAPFRAME := by
        rw [PGSIZE] at hin
        omega
      rw [mapping_page hva, hpage, h.trapframe]
      rfl
  · intro va hva pte hpte
    by_cases hlt : va < TRAPFRAME
    · have hin : va < pages q.sz * 4096 := by
        rw [← h.space.isSome_iff hlt, hpte]
        rfl
      obtain ⟨pte', hpte', hread, -⟩ := h.space.mapping_some hin
      rw [hpte] at hpte'
      cases hpte'
      exact flag_leaf hread
    · exact flag_leaf (hlast va hva (Nat.not_lt.mp hlt) pte hpte).2.1
  · intro va hva pte hle hpte hu
    rw [hround] at hle
    have hge : TRAPFRAME ≤ va := by
      by_contra hlt
      rw [h.space.mapping_none hle (Nat.not_le.mp hlt)] at hpte
      cases hpte
    obtain ⟨hv, hlook⟩ := mapping_eq_some.mp hpte
    have hlt := (hlast va hva hge pte hpte).1
    refine h.not_readable hlt hge ⟨hlt, ?_, ?_⟩
    all_goals rwa [hlook]
  · intro path c i hlen hix hi hnode hv
    have hown := (ht.node_iff h.space.root (by simpa using hlen.le) hix).mp hnode
    exact (ht.entry hown hlen hi hv).2

theorem Procs.pages_distinct {proc : Fin NPROC → Proc} {va' pte pte' : Nat} (h : Procs own m proc)
    (hi : (proc i).pagetable ≠ 0) (hj : (proc j).pagetable ≠ 0) (hva : va < PGROUNDUP (proc i).sz)
    (hva' : va' < PGROUNDUP (proc j).sz) (hpte : mapping m (proc i).pagetable va = some pte)
    (hpte' : mapping m (proc j).pagetable va' = some pte') (heq : PTE2PA pte = PTE2PA pte') :
    i = j ∧ va / PGSIZE = va' / PGSIZE := by
  have hround : ∀ {k}, (proc k).pagetable ≠ 0 →
      PGROUNDUP (proc k).sz = pages (proc k).sz * 4096 := by
    intro k hk
    have hbound := (h.image k hk).space.bound
    have hmax := TRAPFRAME_lt
    refine PGROUNDUP_pages ?_
    rw [pages] at hbound
    omega
  rw [hround hi] at hva
  rw [hround hj] at hva'
  obtain ⟨pte1, hpte1, -, hown1, -⟩ := (h.image i hi).space.mapping_some hva
  obtain ⟨pte2, hpte2, -, hown2, -⟩ := (h.image j hj).space.mapping_some hva'
  rw [hpte] at hpte1
  cases hpte1
  rw [hpte'] at hpte2
  cases hpte2
  rw [heq, hown2, Owner.user.injEq] at hown1
  exact ⟨h.inj i j hi hown1.1.symm, hown1.2.symm⟩

/-- The address spaces of all processes have their shape and share no page. No call panics, but for
the `exit` of the first process, and `copyout` to one process does not reach another one. -/
theorem address_spaces_isolated (h : Reachable B S) :
    (∀ i, (S.proc i).state ≠ .UNUSED →
      (S.proc i).pagetable ≠ 0 ∧ AddressSpace S.mem (S.proc i)) ∧
    (∀ i j va va' pte pte', (S.proc i).state ≠ .UNUSED → (S.proc j).state ≠ .UNUSED →
      va < PGROUNDUP (S.proc i).sz → va' < PGROUNDUP (S.proc j).sz →
      mapping S.mem (S.proc i).pagetable va = some pte →
      mapping S.mem (S.proc j).pagetable va' = some pte' → PTE2PA pte = PTE2PA pte' →
      i = j ∧ va / PGSIZE = va' / PGSIZE) ∧
    (∀ i c, (S.proc i).state = .RUNNABLE → (∃ S', call i c S = .ok ((), S')) ∨
      i = S.initproc ∧ (∃ status, c = .exit status) ∧
        call i c S = .error (.panic .initExiting)) ∧
    ∀ i dstva src, (S.proc i).state ≠ .UNUSED →
      ∃ done m, copyout (S.proc i).pagetable dstva src S.mem = .ok (done, m) ∧
        ∀ j, j ≠ i → (S.proc j).state ≠ .UNUSED → SameSpace S { S with mem := m } j := by
  obtain ⟨own, hs⟩ := h.shape
  have hp := hs.sound.procs
  refine ⟨fun i hi => ?_, ?_, fun i c hi => ?_, fun i dstva src hi => ?_⟩
  · have hlive := ((hs.ok i).live hi).1
    exact ⟨hlive, (hp.image i hlive).addressSpace hp.heap.tables⟩
  · intro i j va va' pte pte' hi hj
    exact hp.pages_distinct ((hs.ok i).live hi).1 ((hs.ok j).live hj).1
  · by_cases hexit : i = S.initproc ∧ ∃ status, c = .exit status
    · obtain ⟨hinit, status, rfl⟩ := hexit
      exact .inr ⟨hinit, ⟨status, rfl⟩, exit_init hinit⟩
    · obtain ⟨_, S', hrun, -⟩ := (hs.call hi c fun status hc hinit =>
        hexit ⟨hinit, status, hc⟩).total
      exact .inl ⟨S', hrun⟩
  · have hlive := ((hs.ok i).live hi).1
    obtain ⟨done, m, hrun, ht⟩ := ((hp.image i hlive).copyout hp.heap.tables dstva src).total
    refine ⟨done, m, hrun, fun j hj hused => Spared.same ⟨⟨rfl, rfl, rfl⟩, _, ht.isLocal, ?_⟩ hs hused⟩
    rintro o ho ⟨k, rfl⟩
    exact hp.not_avail hj ho (.inr (.user k hlive))

omit [Machine] in
theorem address_spaces_isolated_boot : ∃ S, @Reachable smallMachine bootPages S ∧
    (S.proc 0).sz = PGSIZE ∧ AddressSpace S.mem (S.proc 0) := by
  let := smallMachine
  obtain ⟨S, -, hS, hstate, hsz, -⟩ := bootThen_parts (pure ()) () (by decide +kernel)
  exact ⟨S, hS, hsz, ((address_spaces_isolated hS).1 0 (by simp [hstate])).2⟩

/-- `exec` returns for every file, whatever is in it, and so does the system call. -/
theorem exec_survives (h : Reachable B S) (hi : (S.proc i).state ≠ .UNUSED) (fails : List Bool) :
    (∀ path file argv, argv.length ≤ MAXARG - 1 → (∀ arg ∈ argv, arg.length < PGSIZE) →
      ∃ res S', exec i path file argv { S with mem := { S.mem with fails := fails } } =
        .ok (res, S')) ∧
    ∀ path file uargv, ∃ res S',
      sysExec i path file uargv { S with mem := { S.mem with fails := fails } } = .ok (res, S') := by
  obtain ⟨own, hs⟩ := h.shape
  have hs' := hs.withFails fails
  have hlive := (hs.ok i).live hi
  constructor
  · intro path file argv _ _
    obtain ⟨res, S', hrun, -⟩ := (exec_spec hs'.sound.procs hlive.1 hlive.2).total
    exact ⟨res, S', hrun⟩
  · intro path file uargv
    obtain ⟨res, S', hrun, -⟩ := (sysExec_spec hs'.sound.procs hs'.held hlive.1 hlive.2).total
    exact ⟨res, S', hrun⟩

omit [Machine] in
/-- A file of zeros, without memory. -/
theorem exec_survives_zeros : ∃ S res S', @Reachable smallMachine bootPages S ∧
    @exec smallMachine 0 [97] (some (List.replicate 64 0)) [[97]]
      { S with mem := { S.mem with fails := [true] } } = .ok (res, S') := by
  let := smallMachine
  obtain ⟨S, -, hS, hstate, -, -⟩ := bootThen_parts (pure ()) () (by decide +kernel)
  have hused : (S.proc 0).state ≠ .UNUSED := by simp [hstate]
  obtain ⟨res, S', hrun⟩ := (exec_survives hS hused [true]).1 [97] (some (List.replicate 64 0)) [[97]]
    (by decide) (by decide)
  exact ⟨S, res, S', hS, hrun⟩

/-- What `growproc` with `n` says it does: it has changed the size by `n`, with the contents that
remain and zeros in new pages, or it has changed nothing. -/
structure Grew (i : Fin NPROC) (n : Int) (res : Bool) (S S' : Sys) : Prop where
  success : res = true → ((S'.proc i).sz : Int) = (S.proc i).sz + n ∧
    (∀ va, va < (S.proc i).sz → va < (S'.proc i).sz →
      view S'.mem (S'.proc i).pagetable va = view S.mem (S.proc i).pagetable va) ∧
    ∀ va, PGROUNDUP (S.proc i).sz ≤ va → va < PGROUNDUP (S'.proc i).sz →
      ∃ flags, view S'.mem (S'.proc i).pagetable va = some (flags, 0)
  failure : res = false → (S'.proc i).sz = (S.proc i).sz ∧
    ∀ va < TRAPFRAME, mapping S'.mem (S'.proc i).pagetable va =
        mapping S.mem (S.proc i).pagetable va ∧
      view S'.mem (S'.proc i).pagetable va = view S.mem (S.proc i).pagetable va

theorem Resized.view {sz sz' tf : Nat} (h : Resized r sz sz' tf own own' m m')
    (hi : Image own m r (pages sz) tf) (hlt : va < pages sz * 4096) (hlt' : va < pages sz' * 4096) :
    mapping m' r va = mapping m r va ∧ Vm.view m' r va = Vm.view m r va := by
  obtain ⟨pte, hpte, -⟩ := hi.space.mapping_some hlt
  obtain ⟨hpte', hpage⟩ := h.kept va hlt hlt' pte hpte
  have hmap : mapping m' r va = mapping m r va := hpte'.trans hpte.symm
  refine ⟨hmap, view_congr hmap fun pte' h' => ?_⟩
  rw [hpte] at h'
  cases h'
  exact hpage

/-- `growproc` does what it says if the size does not become negative. -/
theorem growproc_reports (h : Reachable B S) (hi : (S.proc i).state ≠ .UNUSED) (n : Int32) :
    ∃ res S', growproc i n.toInt S = .ok (res, S') ∧
      (Grew i n.toInt res S S' ↔ 0 ≤ (S.proc i).sz + n.toInt) := by
  obtain ⟨own, hs⟩ := h.shape
  have hlive := ((hs.ok i).live hi).1
  obtain ⟨res, S', hrun, own', m', sz', rfl, hr, hneg, hsz⟩ :=
    (growproc_spec hs.sound.procs hlive n.le_toInt n.toInt_lt).total
  have hold := hs.sound.procs.image i hlive
  have hmax := TRAPFRAME_lt
  have hround : ∀ {sz tf own m}, Image own m (S.proc i).pagetable (pages sz) tf →
      sz ≤ pages sz * 4096 ∧ PGROUNDUP sz = pages sz * 4096 := by
    intro sz tf own m himage
    have hbound := himage.space.bound
    have hle : sz ≤ pages sz * 4096 := by
      rw [pages]
      omega
    exact ⟨hle, PGROUNDUP_pages (by omega)⟩
  obtain ⟨hle₁, hround₁⟩ := hround hold
  obtain ⟨hle₂, hround₂⟩ := hround hr.image
  refine ⟨res, _, hrun, fun hg => ?_, fun hle => ⟨fun hres => ?_, fun hres => ?_⟩⟩
  · by_contra hlt
    have hres := hneg (by omega)
    have := (hg.success hres).1
    simp only [update_self, Proc.withSz] at this
    rw [if_neg fun hc => hlt hc.2] at hsz
    omega
  · simp only [update_self, Proc.withSz, hround₁, hround₂]
    rw [if_pos ⟨hres, hle⟩] at hsz
    refine ⟨hsz, fun va hlt hlt' => (hr.view hold (by omega) (by omega)).2, fun va hlo hhi => ?_⟩
    obtain ⟨pte, hpte, hpage⟩ := hr.new va hlo hhi
    refine ⟨PTE_FLAGS pte, ?_⟩
    have hbyte := Mem.byte_add (m := m') (PTE2PA_aligned pte) ⟨va % PGSIZE, Nat.mod_lt _ (by decide)⟩
    simp only at hbyte
    rw [view, hpte, Option.map_some, hbyte, hpage]
  simp only [update_self, Proc.withSz]
  rw [if_neg fun hc => by rw [hres] at hc; cases hc.1] at hsz
  obtain rfl : sz' = (S.proc i).sz := by omega
  refine ⟨rfl, fun va hva => ?_⟩
  by_cases hlt : va < pages (S.proc i).sz * 4096
  · exact hr.view hold hlt hlt
  · rw [view, view, hold.space.mapping_none (Nat.not_lt.mp hlt) hva,
      hr.image.space.mapping_none (Nat.not_lt.mp hlt) hva]
    exact ⟨rfl, rfl⟩

omit [Machine] in
theorem growproc_reports_page : ∃ S S', @Reachable smallMachine bootPages S ∧
    @growproc smallMachine 0 (4096 : Int32).toInt S = .ok (true, S') ∧
    Grew 0 (4096 : Int32).toInt true S S' := by
  let := smallMachine
  obtain ⟨S, S', hS, hstate, hsz, hgrow⟩ := bootThen_parts
    (growproc 0 (4096 : Int32).toInt) true (by decide +kernel)
  have hused : (S.proc 0).state ≠ .UNUSED := by simp [hstate]
  obtain ⟨res, T, hrun, hiff⟩ := growproc_reports hS hused (4096 : Int32)
  rw [hgrow] at hrun
  cases hrun
  exact ⟨S, S', hS, hgrow, hiff.mpr (by rw [hsz]; decide)⟩

omit [Machine] in
/-- One byte more than there is: `growproc` says it has shrunk the process, which has the size it
had. -/
theorem growproc_wraps : ∃ S S', @Reachable smallMachine bootPages S ∧
    (S.proc 0).state = .RUNNABLE ∧ (S.proc 0).sz = 4096 ∧
    @growproc smallMachine 0 (-4097 : Int32).toInt S = .ok (true, S') ∧ (S'.proc 0).sz = 4096 ∧
    ¬ Grew 0 (-4097 : Int32).toInt true S S' := by
  let := smallMachine
  obtain ⟨S, S', hS, hstate, hsz, hgrow⟩ := bootThen_parts
    (do
      let res ← growproc 0 (-4097 : Int32).toInt
      return (res, ((← get).proc 0).sz)) (true, 4096) (by decide +kernel)
  obtain ⟨res, T, hrun, hgrow⟩ := bind_ok hgrow
  obtain ⟨T', T'', hget, hgrow⟩ := bind_ok hgrow
  cases hget
  have heq := Except.ok.inj hgrow
  simp only [Prod.mk.injEq] at heq
  obtain ⟨⟨rfl, hsz'⟩, -⟩ := heq
  refine ⟨S, T, hS, hstate, hsz, hrun, hsz', fun hg => ?_⟩
  have := (hg.success rfl).1
  rw [hsz', hsz] at this
  exact absurd this (by decide)

/-- The process in the slot `np` is a copy of the process `i`, on pages that were free. -/
structure ForkedFrom (B : List Nat) (i np : Fin NPROC) (S S' : Sys) : Prop where
  slot : (S.proc np).state = .UNUSED ∧ (S'.proc np).state = .RUNNABLE
  sz : (S'.proc np).sz = (S.proc i).sz
  view : ∀ va < TRAPFRAME, view S'.mem (S'.proc np).pagetable va =
    view S.mem (S.proc i).pagetable va
  fresh : ∀ va < TRAPFRAME, ∀ pte, mapping S'.mem (S'.proc np).pagetable va = some pte →
    InUse B S (PTE2PA pte) .free
  distinct : ∀ va < TRAPFRAME, ∀ va' < TRAPFRAME, ∀ pte pte',
    mapping S'.mem (S'.proc np).pagetable va = some pte →
    mapping S'.mem (S'.proc np).pagetable va' = some pte' → PTE2PA pte = PTE2PA pte' →
    va / PGSIZE = va' / PGSIZE
  trapframe : ∀ k < Trapframe.size / 8, S'.mem.word (S'.proc np).trapframe k =
    if k = Trapframe.a0 then 0 else S.mem.word (S.proc i).trapframe k
  ofile : (S'.proc np).ofile = (S.proc i).ofile
  cwd : (S'.proc np).cwd = (S.proc i).cwd
  file : ∀ f, S'.file f = { S.file f with ref := (S.file f).ref + fds (S.proc i) f }
  iref : S'.iref = dupRef S.iref (S.proc i).cwd
  others : ∀ j, j ≠ np → S'.proc j = S.proc j
  spaces : ∀ j, (S.proc j).state ≠ .UNUSED → SameSpace S S' j

/-- `fork` has changed no process, no file, and not the set of free pages. -/
structure ForkFailed (B : List Nat) (S S' : Sys) : Prop where
  procs : ∀ j, (S.proc j).state ≠ .UNUSED → S'.proc j = S.proc j ∧ SameSpace S S' j
  unused : ∀ j, (S.proc j).state = .UNUSED → (S'.proc j).state = .UNUSED
  file : S'.file = S.file
  iref : S'.iref = S.iref
  free : ∀ p, InUse B S' p .free ↔ InUse B S p .free

theorem Unforked.failed (hs : Shape B own S) (h : Unforked own S S') : ForkFailed B S S' := by
  refine ⟨fun j hj => ?_, fun j hj => ?_, h.file, h.iref, fun p => ?_⟩
  · exact ⟨(h.spared hj).1, (h.spared hj).2.same hs hj⟩
  · rcases h.proc j with hsame | ⟨-, hfreed⟩
    · rw [hsame]
      exact hj
    · rw [hfreed]
      rfl
  · rw [hs.inUse_iff, (h.shape hs).inUse_iff]
    rfl

section

variable {np : Fin NPROC} (h : Forked own own' i np S S') (hs : Shape B own S)
  (hi : (S.proc i).state ≠ .UNUSED)
include h hs hi

theorem Forked.child {va : Nat} (hva : va < TRAPFRAME) :
    Vm.view S'.mem (S'.proc np).pagetable va = Vm.view S.mem (S.proc i).pagetable va ∧
    ∀ pte, mapping S'.mem (S'.proc np).pagetable va = some pte →
      va < PGROUNDUP (S'.proc np).sz ∧ own (PTE2PA pte) = .free := by
  have hmax := TRAPFRAME_lt
  obtain ⟨tf, r, htf, hr, hproc⟩ := h.proc
  have hchild : (S'.proc np).pagetable ≠ 0 ∧ (S'.proc np).sz = (S.proc i).sz := by
    rw [hproc, update_self]
    exact ⟨hr, rfl⟩
  have hnew := h.sound.procs.image np hchild.1
  have hold := hs.sound.procs.image i ((hs.ok i).live hi).1
  rw [hchild.2] at hnew ⊢
  have hbound := hold.space.bound
  have hround : PGROUNDUP (S.proc i).sz = pages (S.proc i).sz * 4096 := by
    refine PGROUNDUP_pages ?_
    rw [pages] at hbound
    omega
  rw [hround]
  by_cases hlt : va < pages (S.proc i).sz * 4096
  · obtain ⟨pte, hpte, ⟨pte0, hpte0, hflags, hpage⟩, hfree⟩ :=
      h.copied (va / 4096) (Nat.div_lt_of_lt_mul (by omega))
    rw [← mapping_page (by omega)] at hpte hpte0
    constructor
    · have hbyte : ∀ (m : Mem) pte, m.byte (PTE2PA pte + va % PGSIZE) =
          m.page (PTE2PA pte / PGSIZE) ⟨va % PGSIZE, Nat.mod_lt _ (by decide)⟩ := fun m pte =>
        Mem.byte_add (PTE2PA_aligned pte) ⟨va % PGSIZE, Nat.mod_lt _ (by decide)⟩
      rw [view, view, hpte, hpte0, Option.map_some, Option.map_some, hflags, hbyte, hbyte, hpage]
    · intro pte' hpte'
      rw [hpte] at hpte'
      cases hpte'
      exact ⟨hlt, hfree⟩
  · have hnone := hnew.space.mapping_none (Nat.not_lt.mp hlt) hva
    rw [view, view, hnone, hold.space.mapping_none (Nat.not_lt.mp hlt) hva]
    refine ⟨rfl, fun pte hpte => ?_⟩
    cases hpte

theorem Forked.forkedFrom : ForkedFrom B i np S S' := by
  have hs' := h.shape hs
  obtain ⟨tf, r, htf, hr, hproc⟩ := h.proc
  have hothers : ∀ j, j ≠ np → S'.proc j = S.proc j := by
    intro j hj
    rw [hproc, update_of_ne hj]
  have hself : (S'.proc np).state = .RUNNABLE ∧ (S'.proc np).sz = (S.proc i).sz ∧
      (S'.proc np).ofile = (S.proc i).ofile ∧ (S'.proc np).cwd = (S.proc i).cwd := by
    rw [hproc, update_self]
    exact ⟨rfl, rfl, rfl, rfl⟩
  have hlive := ((hs'.ok np).live (by rw [hself.1]; simp)).1
  refine ⟨⟨h.unused, hself.1⟩, hself.2.1, fun va hva => (h.child hs hi hva).1, ?_, ?_, h.frame,
    hself.2.2.1, hself.2.2.2, fun f => ?_, h.iref, hothers, fun j hj => ?_⟩
  · intro va hva pte hpte
    exact hs.inUse_iff.mpr ⟨trivial, ((h.child hs hi hva).2 pte hpte).2⟩
  · intro va hva va' hva' pte pte' hpte hpte' heq
    exact (hs'.sound.procs.pages_distinct hlive hlive ((h.child hs hi hva).2 pte hpte).1
      ((h.child hs hi hva').2 pte' hpte').1 hpte hpte' heq).2
  · have hcount := refs_replace S.proc np (S'.proc np) f
    have hnone : fds (S.proc np) f = 0 := by
      simp [fds, ((hs.ok np).closed (.inl h.unused)).1]
    have hsame : fds (S'.proc np) f = fds (S.proc i) f := by
      rw [fds, fds, hself.2.2.1]
    have hupdate : update S.proc np (S'.proc np) = S'.proc := by
      rw [hproc, update_self]
    rw [hupdate, hnone, hsame, ← hs.sound.files.count, ← hs'.sound.files.count,
      Nat.add_zero] at hcount
    rw [h.file f, hcount]
  · exact (h.spared hj).same hs hj

end

/-- A process cannot see what another one does, as long as both are there. -/
theorem Shape.isolated {c : Call} (h : Shape B own S) (hij : j ≠ i) (hstep : Step S (i, c) S')
    (hj : (S.proc j).state ≠ .UNUSED) (hj' : (S'.proc j).state ≠ .UNUSED) : SameSpace S S' j := by
  obtain ⟨own', -, hspared⟩ := h.of_step hstep
  exact (hspared j hij hj hj').same h hj

theorem Reachable.run {ls : List (Fin NPROC × Call)} (h : Reachable B S)
    (hrun : Transition.Run Step S ls S') : Reachable B S' := by
  induction hrun with
  | refl => exact h
  | snoc _ hl ih => exact ih.step hl

/-- `fork` makes a copy of the process, of which neither sees what the other one does later, or it
changes nothing. -/
theorem fork_faithful (h : Reachable B S) (hi : (S.proc i).state = .RUNNABLE) :
    ∃ res S', fork i S = .ok (res, S') ∧ (res = none → ForkFailed B S S') ∧
      ∀ pid, res = some pid → ∃ np, ForkedFrom B i np S S' ∧
        ∀ ls T, Transition.Run Step S' ls T → ∀ a b c T',
          (a = i ∧ b = np ∨ a = np ∧ b = i) → Step T (a, c) T' →
          (T.proc b).state ≠ .UNUSED → (T'.proc b).state ≠ .UNUSED → SameSpace T T' b := by
  obtain ⟨own, hs⟩ := h.shape
  have hused : (S.proc i).state ≠ .UNUSED := by
    rw [hi]
    simp
  obtain ⟨res, S', hrun, hfork⟩ := (fork_spec hs.sound hs.ok hused).total
  have hnext : Reachable B S' := by
    have hcall : Wp (fun _ => False) (call i .fork) S fun _ T => T = S' := by
      rw [call, wp_discard]
      exact .of_ok hrun rfl
    obtain ⟨_, T, hT, rfl⟩ := hcall.total
    exact h.step (l := (i, .fork)) ⟨hi, hT⟩
  refine ⟨res, S', hrun, ?_⟩
  rcases hfork with ⟨rfl, hu⟩ | ⟨np, own', rfl, hf⟩
  · refine ⟨fun _ => hu.failed hs, fun pid hpid => ?_⟩
    cases hpid
  refine ⟨fun hnone => ?_, fun pid _ => ⟨np, hf.forkedFrom hs hused, ?_⟩⟩
  · cases hnone
  intro ls T hls a b c T' hab hstep hb hb'
  have hne : b ≠ a := by
    rcases hab with ⟨rfl, rfl⟩ | ⟨rfl, rfl⟩
    all_goals
      rintro rfl
      exact hused hf.unused
  obtain ⟨ownT, hT⟩ := (hnext.run hls).shape
  exact hT.isolated hne hstep hb hb'

omit [Machine] in
theorem fork_faithful_boot : ∃ S S' np, @Reachable smallMachine bootPages S ∧
    @fork smallMachine 0 S = .ok (some 2, S') ∧ ForkedFrom bootPages 0 np S S' := by
  let := smallMachine
  obtain ⟨S, S', hS, hstate, -, hfork⟩ := bootThen_parts (fork 0) (some 2) (by decide +kernel)
  obtain ⟨res, T, hrun, -, hsome⟩ := fork_faithful hS hstate
  rw [hfork] at hrun
  cases hrun
  obtain ⟨np, hnp, -⟩ := hsome 2 rfl
  exact ⟨S, S', np, hS, hfork, hnp⟩

end

end Xv6.Vm
