import Xv6.Kernel.Vm.Boot

namespace Xv6.Vm

open Hoare List

/-- The page-table page at the end of a path of indices: from page to page by valid entries that are
not leaves. -/
def node (s : Mem) : Nat → List Nat → Option Nat
  | r, [] => some r
  | r, i :: path =>
      if Flag (s.word r i) PTE_V ∧ ¬ Flag (s.word r i) (PTE_R ||| PTE_W ||| PTE_X) then
        node s (PTE2PA (s.word r i)) path
      else none

/-- What a page may be in use for. -/
inductive Use
  | free
  | user (i : Fin NPROC) (vpn : Nat)
  | table (i : Fin NPROC) (path : List Nat)
  | trapframe (i : Fin NPROC)
  | pipe
  | boot

/-- The page `p` is in use for `u`, as one sees it in the state, where the kernel has taken the pages
`B` at boot. -/
def InUse (B : List Nat) (S : Sys) (p : Nat) : Use → Prop
  | .free => ∃ l, Chain S.mem S.mem.freelist l ∧ p ∈ l
  | .user i vpn => (S.proc i).pagetable ≠ 0 ∧ vpn * PGSIZE < TRAPFRAME ∧
      ∃ pte, mapping S.mem (S.proc i).pagetable (vpn * PGSIZE) = some pte ∧ PTE2PA pte = p
  | .table i path => (S.proc i).pagetable ≠ 0 ∧ path.length ≤ 2 ∧ (∀ ix ∈ path, ix < 512) ∧
      node S.mem (S.proc i).pagetable path = some p
  | .trapframe i => (S.proc i).trapframe ≠ 0 ∧ (S.proc i).trapframe = p
  | .pipe => ∃ f, (S.file f).type = .FD_PIPE ∧ (S.file f).pipe = p
  | .boot => p ∈ B

/-- The use in the terms of the invariant. -/
def Use.owner (S : Sys) : Use → Owner
  | .free => .free
  | .user i vpn => .user (S.proc i).pagetable vpn
  | .table i path => .table (S.proc i).pagetable path
  | .trapframe i => .trapframe i
  | .pipe => .pipe
  | .boot => .boot

/-- Uses by a page table are those of a process that has one. -/
def Use.Live (S : Sys) : Use → Prop
  | .user i _ => (S.proc i).pagetable ≠ 0
  | .table i _ => (S.proc i).pagetable ≠ 0
  | _ => True

section

variable [Machine] {own own' : Nat → Owner} {m m' : Mem} {S S' : Sys} {i j : Fin NPROC}
  {r p : Nat} {B : List Nat} {u u' : Use} {proc : Fin NPROC → Proc}

omit [Machine] in
theorem Chain.unique {s : Mem} {a : Nat} {l l' : List Nat} (h : Chain s a l) (h' : Chain s a l') :
    l = l' := by
  induction h generalizing l' with
  | nil =>
    cases h' with
    | nil => rfl
    | cons hne _ => exact absurd rfl hne
  | cons hne _ ih =>
    cases h' with
    | nil => exact absurd rfl hne
    | cons _ hnext => rw [ih hnext]

theorem Tables.node_iff (h : Tables own m) {q : Nat} {pre path : List Nat}
    (hq : own q = .table r pre) (hlen : (pre ++ path).length ≤ 2) (hix : ∀ ix ∈ path, ix < 512) :
    node m q path = some p ↔ own p = .table r (pre ++ path) := by
  induction path generalizing q pre with
  | nil =>
    rw [node, append_nil, Option.some_inj]
    constructor
    · rintro rfl
      exact hq
    · exact h.inj hq
  | cons i path ih =>
    have hi : i < 512 := hix i (.head _)
    have hpre : pre.length < 2 := by
      simp only [length_append, length_cons] at hlen
      omega
    have happ : pre ++ i :: path = (pre ++ [i]) ++ path := by simp
    by_cases hv : Flag (m.word q i) PTE_V
    · obtain ⟨hchild, hleaf⟩ := h.entry hq hpre hi hv
      rw [node, if_pos ⟨hv, hleaf⟩, happ]
      rw [happ] at hlen
      exact ih hchild hlen fun ix hx => hix ix (.tail _ hx)
    rw [node, if_neg fun hc => hv hc.1]
    refine iff_of_false (by simp) fun hp => hv ?_
    rw [happ] at hp
    obtain ⟨c, hc⟩ := h.above hp
    obtain ⟨-, -, q', hq', hv', -⟩ := h.back hc
    rwa [h.inj hq hq']

/-- What one sees in the state is what the invariant says. -/
theorem Shape.inUse_iff (h : Shape B own S) : InUse B S p u ↔ u.Live S ∧ own p = u.owner S := by
  have hp := h.sound.procs
  cases u with
  | free =>
    obtain ⟨l, hchain, -, hmem⟩ := hp.heap.kmem.chain
    constructor
    · rintro ⟨l', hchain', hpl⟩
      rw [hchain'.unique hchain] at hpl
      exact ⟨trivial, (hmem p).mp hpl⟩
    · rintro ⟨-, hown⟩
      exact ⟨l, hchain, (hmem p).mpr hown⟩
  | user i k =>
    constructor
    · rintro ⟨hi, hlt, pte, hpte, rfl⟩
      have hspace := (hp.image i hi).space
      rw [PGSIZE] at hlt hpte
      have hk : k * 4096 < pages (S.proc i).sz * 4096 := by
        rw [← hspace.isSome_iff hlt, hpte]
        rfl
      obtain ⟨pte', hpte', -, hown, -⟩ := hspace.mapped k (Nat.lt_of_mul_lt_mul_right hk)
      rw [hpte] at hpte'
      cases hpte'
      exact ⟨hi, hown⟩
    · rintro ⟨hi, hown⟩
      have hspace := (hp.image i hi).space
      obtain ⟨hk, hpte⟩ := hspace.owned p k hown
      exact ⟨hi, hspace.lt hk, hpte⟩
  | table i path =>
    constructor
    · rintro ⟨hi, hlen, hix, hnode⟩
      exact ⟨hi, (hp.heap.tables.node_iff (hp.image i hi).space.root hlen hix).mp hnode⟩
    rintro ⟨hi, hown⟩
    have ht := hp.heap.tables
    have hlen := ht.length_le hown
    have hix : ∀ ix ∈ path, ix < 512 := by
      intro ix hx
      obtain ⟨pre, rest, rfl⟩ := append_of_mem hx
      have happ : pre ++ ix :: rest = (pre ++ [ix]) ++ rest := by simp
      rw [Use.owner, happ] at hown
      obtain ⟨q, hq⟩ := ht.above hown
      exact (ht.back hq).2.1
    exact ⟨hi, hlen, hix, (ht.node_iff (hp.image i hi).space.root hlen hix).mpr hown⟩
  | trapframe i =>
    constructor
    · rintro ⟨h0, rfl⟩
      exact ⟨trivial, (hp.trapframe i _ h0).mpr rfl⟩
    · rintro ⟨-, hown⟩
      have hne := (hp.isPool hown (by simp [Use.owner])).ne_zero
      have htf := (hp.trapframe i p hne).mp hown
      exact ⟨by rwa [htf], htf⟩
  | pipe =>
    simp only [Use.Live, true_and]
    exact (h.sound.files.pipe p).symm
  | boot =>
    simp only [Use.Live, true_and]
    exact (h.boot p).symm

theorem Shape.use_unique (h : Shape B own S) (hu : InUse B S p u) (hu' : InUse B S p u') :
    u = u' := by
  obtain ⟨hlive, hown⟩ := h.inUse_iff.mp hu
  obtain ⟨hlive', hown'⟩ := h.inUse_iff.mp hu'
  rw [hown] at hown'
  cases u <;> cases u' <;> simp only [Use.owner, reduceCtorEq, Owner.user.injEq, Owner.table.injEq,
    Owner.trapframe.injEq] at hown' <;> try rfl
  · obtain ⟨hr, rfl⟩ := hown'
    rw [h.sound.procs.inj _ _ hlive hr]
  · obtain ⟨hr, rfl⟩ := hown'
    rw [h.sound.procs.inj _ _ hlive hr]
  · rw [hown']

/-- Each page of the allocator is in use for something. -/
theorem Shape.use_exists (h : Shape B own S) (hpool : Pool p) : ∃ u, InUse B S p u := by
  have hp := h.sound.procs
  have htree : ∀ {q r path}, own q = .table r path → ∃ i, (S.proc i).pagetable = r ∧ r ≠ 0 := by
    intro q r path hq
    obtain ⟨i, hi⟩ := hp.table hq
    obtain ⟨c, hc⟩ := hp.heap.tables.above (show own q = .table r ([] ++ path) from hq)
    have hroot := hp.heap.tables.root hc
    exact ⟨i, hi, hroot ▸ (hp.isPool hc (by simp)).ne_zero⟩
  cases hown : own p with
  | none => exact absurd hpool ((hp.pool p).mp hown)
  | held => exact absurd hown (h.held p)
  | free => exact ⟨.free, h.inUse_iff.mpr ⟨trivial, hown⟩⟩
  | boot => exact ⟨.boot, h.inUse_iff.mpr ⟨trivial, hown⟩⟩
  | pipe => exact ⟨.pipe, h.inUse_iff.mpr ⟨trivial, hown⟩⟩
  | trapframe i => exact ⟨.trapframe i, h.inUse_iff.mpr ⟨trivial, hown⟩⟩
  | table r path =>
    obtain ⟨i, rfl, hr⟩ := htree hown
    exact ⟨.table i path, h.inUse_iff.mpr ⟨hr, hown⟩⟩
  | user r k =>
    obtain ⟨i, rfl, hr⟩ := htree (hp.heap.user hown)
    exact ⟨.user i k, h.inUse_iff.mpr ⟨hr, hown⟩⟩

/-- The pages that `kinit` frees are those of the allocator. From then on each of them is in use for
one thing, other pages are not in use, and each end of a pipe has one file. -/
theorem pages_conserved (h : Reachable B S) :
    (∀ page, ∃ m, kinit ⟨page, 0, []⟩ = .ok ((), m) ∧
      ∃ l, Chain m m.freelist l ∧ l.Nodup ∧ ∀ p, p ∈ l ↔ Pool p) ∧
    (∃ l, Chain S.mem S.mem.freelist l ∧ l.Nodup) ∧
    (∀ p, Pool p → ∃! u, InUse B S p u) ∧
    (∀ p u, InUse B S p u → Pool p) ∧
    ∀ f g, (S.file f).type = .FD_PIPE → (S.file g).type = .FD_PIPE →
      (S.file f).pipe = (S.file g).pipe → (S.file f).writable = (S.file g).writable → f = g := by
  obtain ⟨own, hs⟩ := h.shape
  refine ⟨fun page => ?_, ?_, fun p hp => ?_, fun p u hu => ?_, hs.sound.files.side⟩
  · obtain ⟨_, m, hm, hk⟩ := (kinit_spec (s := ⟨page, 0, []⟩) rfl).total
    obtain ⟨l, hchain, hnodup, hmem⟩ := hk.chain
    refine ⟨m, hm, l, hchain, hnodup, fun p => (hmem p).trans ?_⟩
    split_ifs with hp <;> simp [hp]
  · obtain ⟨l, hchain, hnodup, -⟩ := hs.sound.procs.heap.kmem.chain
    exact ⟨l, hchain, hnodup⟩
  · obtain ⟨u, hu⟩ := hs.use_exists hp
    exact ⟨u, hu, fun u' hu' => hs.use_unique hu' hu⟩
  · refine hs.sound.procs.isPool (hs.inUse_iff.mp hu).2 ?_
    cases u <;> simp [Use.owner]

end

/-- A boot in which the kernel takes two pages, and a program after it. -/
def bootThen [Machine] {α : Type} (x : SysM α) :
    SysM (Option (List Nat) × ProcState × Nat × α) := do
  let pages ← boot 2 [] 1
  let S ← get
  let a ← x
  pure (pages, (S.proc 0).state, (S.proc 0).sz, a)

def bootPages : List Nat := [PHYSTOP - PGSIZE, PHYSTOP - 2 * PGSIZE]

theorem bootThen_parts [Machine] {α : Type} (x : SysM α) (a : α)
    (h : (bootThen x (Sys.start fun _ _ => 0)).toOption.map Prod.fst =
      some (some bootPages, .RUNNABLE, PGSIZE, a)) :
    ∃ S S', Reachable bootPages S ∧ (S.proc 0).state = .RUNNABLE ∧
      (S.proc 0).sz = PGSIZE ∧ x S = .ok (a, S') := by
  obtain ⟨t, hok⟩ := ok_of_toOption h
  obtain ⟨pages, S, hboot, hok⟩ := bind_ok hok
  obtain ⟨S1, S2, hget, hok⟩ := bind_ok hok
  cases hget
  obtain ⟨a', S', hx, hok⟩ := bind_ok hok
  have heq := Except.ok.inj hok
  simp only [Prod.mk.injEq] at heq
  obtain ⟨⟨rfl, hstate, hsz, rfl⟩, rfl⟩ := heq
  exact ⟨S, S', @Reachable.boot _ _ _ _ _ _ _ S.mem.fails hboot, hstate, hsz, hx⟩

/-- The first page that the kernel has not taken is the trapframe of the first process. -/
theorem pages_conserved_boot : ∃ S, @Reachable smallMachine bootPages S ∧
    ∀ u, InUse bootPages S (PHYSTOP - 3 * PGSIZE) u → u = .trapframe 0 := by
  let := smallMachine
  obtain ⟨S, S', hS, -, -, htf⟩ := bootThen_parts (do return ((← get).proc 0).trapframe)
    (PHYSTOP - 3 * PGSIZE) (by decide +kernel)
  have heq : (S.proc 0).trapframe = PHYSTOP - 3 * PGSIZE := congrArg Prod.fst (Except.ok.inj htf)
  obtain ⟨u, -, hunique⟩ := (@pages_conserved smallMachine _ _ hS).2.2.1 (PHYSTOP - 3 * PGSIZE)
    (by decide)
  have huse : InUse bootPages S (PHYSTOP - 3 * PGSIZE) (.trapframe 0) := by
    refine ⟨?_, heq⟩
    rw [heq]
    decide
  exact ⟨S, hS, fun u' hu' => (hunique u' hu').trans (hunique _ huse).symm⟩

end Xv6.Vm
