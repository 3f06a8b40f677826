import Xv6.Kernel.Vm.Files

namespace Xv6.Vm

open ByteCodec Hoare Function List

/-- The trapframe at `dst` becomes a copy of the one at `src`, but for the result of the call. -/
def Mem.copyFrame (m : Mem) (src dst : Nat) : Mem :=
  (m.setBytes dst (m.bytes src Trapframe.size)).setWord dst Trapframe.a0 0

def dupRef (iref : Nat → Nat) : Option Nat → Nat → Nat
  | none => iref
  | some ip => update iref ip (iref ip + 1)

/-- A child of the process `p`, in slot `i`, in what was in the slot of the child. -/
def Proc.childOf (q : Proc) (i : Fin NPROC) (p : Proc) : Proc :=
  { q with
    sz := p.sz, ofile := p.ofile, cwd := p.cwd, parent := some i, state := .RUNNABLE
    name := safestrcpy q.name p.name Proc.nameSize }

variable [Machine] {own own' : Nat → Owner} {m m' : Mem} {S S' : Sys} {i j np : Fin NPROC}
  {r p : Nat} {M : Owner → Prop} {E : Stop → Prop} {B : List Nat}

omit [Machine] in
theorem Touches.copyFrame {src dst : Nat} (hp : dst % PGSIZE = 0) (hM : M (own dst)) :
    Touches M own m (m.copyFrame src dst) := by
  refine (Touches.setBytes hp (Nat.le_refl _) ?_ hM).trans (.setPage hp hM)
  rw [Mem.bytes, length_map, length_range]
  exact Nat.add_le_add_left (by decide) _

omit [Machine] in
theorem Mem.word_copyFrame {src dst k : Nat} (hsrc : src % PGSIZE = 0) (hdst : dst % PGSIZE = 0)
    (hk : k < 36) :
    (m.copyFrame src dst).word dst k = if k = Trapframe.a0 then 0 else m.word src k := by
  split_ifs with h0
  · rw [h0]
    exact word_setWord_self (by decide) (by decide)
  rw [copyFrame, word_setWord_index h0, word, word]
  congr 1
  refine Codec.get_congr _ _ _ _ fun o hlo hhi => ?_
  have hlen : (m.bytes src Trapframe.size).length = 288 := by
    simp [bytes, Trapframe.size]
  have ho : (o : Nat) < Trapframe.size := by
    rw [Trapframe.size]
    omega
  rw [← byte_add hdst, ← byte_add hsrc, byte_setBytes, hlen, if_pos ⟨by omega, by omega⟩,
    Nat.add_sub_cancel_left, getD_eq_getElem?_getD, bytes, List.getElem?_map,
    List.getElem?_range ho]
  rfl

/-- The end of `fork` copies the trapframe and shares the files and the working directory. -/
theorem forkShare_spec (hne : np ≠ i)
    (hp : Procs own S.mem (update S.proc np ((S.proc np).withSz (S.proc i).sz)))
    (hf : Files own S.mem (refs S.proc) S.file) (hnone : ∀ fd, (S.proc np).ofile fd = none)
    (hcwd : (S.proc np).cwd = none) (htf : (S.proc np).trapframe ≠ 0) :
    Wp E (forkShare i np) S fun _ S' => ∃ file', S' = { S with
        mem := S.mem.copyFrame (S.proc i).trapframe (S.proc np).trapframe
        file := file'
        iref := dupRef S.iref (S.proc i).cwd
        proc := update S.proc np ((S.proc np).childOf i (S.proc i)) } ∧
      Sound own (refs S'.proc) S' ∧ ∀ f, file' f = { S.file f with ref := (file' f).ref } := by
  have hown : own (S.proc np).trapframe = .trapframe np :=
    (hp.trapframe np _ htf).mpr (by rw [update_self]; rfl)
  have hpool := hp.isPool hown (by simp)
  have ht : Touches (· = .trapframe np) own S.mem
      (S.mem.copyFrame (S.proc i).trapframe (S.proc np).trapframe) := .copyFrame hpool.1 hown
  have hdata : ∀ o, o = Owner.trapframe np → o.Data := by
    rintro o rfl
    simp [Owner.Data]
  have hrefs : refs (update S.proc np ((S.proc np).withSz (S.proc i).sz)) = refs S.proc :=
    refs_update rfl
  have h1 : Sound own (refs (update S.proc np ((S.proc np).withSz (S.proc i).sz))) { S with
        mem := S.mem.copyFrame (S.proc i).trapframe (S.proc np).trapframe
        proc := update S.proc np ((S.proc np).withSz (S.proc i).sz) } := by
    refine ⟨hp.touches ht hdata, ?_⟩
    rw [hrefs]
    exact hf.other ht.isLocal (by simp) fun p hp' => (hp.isPool hp' (by simp)).1
  have hdup := dupFiles_spec (E := E) (S := { S with
      mem := S.mem.copyFrame (S.proc i).trapframe (S.proc np).trapframe
      proc := update S.proc np ((S.proc np).withSz (S.proc i).sz) })
    h1 hne (nodup_finRange _) fun fd _ => by simpa [Proc.withSz] using hnone fd
  simp only [mem_finRange, if_true, update_self, update_idem, update_of_ne hne.symm] at hdup
  rw [forkShare]
  simp only [wp_bind, wp_get, wp_setProc, wp_onMem, wp_modify]
  refine hdup.mono ?_
  rintro _ _ ⟨file', rfl, h2, hfile⟩
  have hrefs' : refs (update S.proc np ((S.proc np).childOf i (S.proc i))) =
      refs (update S.proc np (((S.proc np).withSz (S.proc i).sz).withFiles
        fun fd => (S.proc i).ofile fd)) := by
    refine refs_congr fun j => ?_
    by_cases hj : j = np
    · rw [hj, update_self, update_self]
      rfl
    · rw [update_of_ne hj, update_of_ne hj]
  have hsound : Sound own (refs (update S.proc np ((S.proc np).childOf i (S.proc i)))) { S with
        mem := S.mem.copyFrame (S.proc i).trapframe (S.proc np).trapframe
        file := file'
        proc := update S.proc np ((S.proc np).childOf i (S.proc i)) } := by
    constructor
    · have := (hp.touches ht hdata).updated (i := np) (q := (S.proc np).childOf i (S.proc i))
        (by rw [update_self]; rfl) (by rw [update_self]; rfl)
        (by rw [update_self]; rfl)
      rwa [update_idem] at this
    · rw [hrefs']
      exact h2.files
  rw [dupCwd, wp_bind, wp_get]
  simp only [update_of_ne hne.symm]
  cases hc : (S.proc i).cwd with
  | none =>
    simp only [wp_pure, update_self, update_idem]
    rw [← hc] at hcwd
    simp only [Proc.withFiles, Proc.withSz, hcwd]
    exact ⟨file', rfl, ⟨hsound.procs, hsound.files⟩, hfile⟩
  | some ip =>
    have href : dupRef S.iref (some ip) = update S.iref ip (S.iref ip + 1) := rfl
    simp only [wp_bind, idup, wp_modify, wp_setProc, update_self, update_idem,
      Proc.withFiles, Proc.withSz, ← href, ← hc]
    exact ⟨file', rfl, ⟨hsound.procs, hsound.files⟩, hfile⟩

/-- `fork` has failed: free slots and free pages apart, all is as it was. -/
structure Unforked (own : Nat → Owner) (S S' : Sys) : Prop where
  sound : Sound own (refs S'.proc) S'
  proc : ∀ j, S'.proc j = S.proc j ∨ (S.proc j).state = .UNUSED ∧ S'.proc j = (S.proc j).freed
  loc : Local (· = .free) own own S.mem S'.mem
  file : S'.file = S.file
  iref : S'.iref = S.iref
  initproc : S'.initproc = S.initproc

/-- `fork` has made a copy of the process `i` in the slot `np`. -/
structure Forked (own own' : Nat → Owner) (i np : Fin NPROC) (S S' : Sys) : Prop where
  unused : (S.proc np).state = .UNUSED
  sound : Sound own' (refs S'.proc) S'
  proc : ∃ tf r, tf ≠ 0 ∧ r ≠ 0 ∧ S'.proc = update S.proc np ({ S.proc np with
    pid := S.nextpid, trapframe := tf, pagetable := r }.childOf i (S.proc i))
  loc : Local (Owner.Avail np (S'.proc np).pagetable) own own' S.mem S'.mem
  fresh : ∀ p, (own p).Avail np (S'.proc np).pagetable → own p = .free
  copied : ∀ k < pages (S.proc i).sz, ∃ pte,
    mapping S'.mem (S'.proc np).pagetable (k * 4096) = some pte ∧
    Copied S.mem (S.proc i).pagetable k (PTE_FLAGS pte) (S'.mem.page (PTE2PA pte / PGSIZE)) ∧
    own (PTE2PA pte) = .free
  frame : ∀ k < 36, S'.mem.word (S'.proc np).trapframe k =
    if k = Trapframe.a0 then 0 else S.mem.word (S.proc i).trapframe k
  file : ∀ f, S'.file f = { S.file f with ref := (S'.file f).ref }
  iref : S'.iref = dupRef S.iref (S.proc i).cwd
  initproc : S'.initproc = S.initproc

variable {proc : Fin NPROC → Proc}

omit [Machine] in
theorem refs_freed {proc' : Fin NPROC → Proc}
    (h : ∀ j, proc' j = proc j ∨ (proc j).state = .UNUSED ∧ proc' j = (proc j).freed) :
    refs proc' = refs proc := by
  refine refs_congr fun j => ?_
  rcases h j with hj | ⟨-, hj⟩
  · rw [hj]
  · rw [hj]
    rfl

omit [Machine] in
theorem Owner.not_avail_pipe : ¬ Owner.Avail np r .pipe := by
  rintro (h | h) <;> cases h

theorem Procs.fresh (h : Procs own m proc) (ht : (proc np).trapframe = 0)
    (hr : own r = .free) (hp : (own p).Avail np r) : own p = .free := by
  rcases hp with hp | hp
  · exact hp
  generalize ho : own p = o at hp
  cases hp with
  | table path h0 =>
    rw [← ho]
    exact h.heap.fresh hr (by rw [ho]; exact .table path)
  | user k h0 =>
    rw [← ho]
    exact h.heap.fresh hr (by rw [ho]; exact .user k)
  | trapframe =>
    have hne := (h.isPool ho (by simp)).ne_zero
    exact absurd (((h.trapframe np p hne).mp ho).symm.trans ht) hne

theorem fork_spec (h : Sound own (refs S.proc) S) (hok : ∀ i, (S.proc i).Ok)
    (hi : (S.proc i).state ≠ .UNUSED) :
    Wp E (fork i) S fun res S' => res = none ∧ Unforked own S S' ∨
      ∃ np own', res = some S.nextpid ∧ Forked own own' i np S S' := by
  rw [fork]
  refine (allocproc_spec h.procs hok).bind ?_
  rintro _ S1 ⟨m1, pid, ⟨rfl, hproc, hS, hp1, hl1⟩ |
    ⟨np, tf, r, own1, rfl, hunused, htf, hr, htfree, hrfree, rfl, hp1, hl1⟩⟩
  · have hfiles := h.files.other hl1 (by simp) fun p => h.aligned
    refine .inl ⟨rfl, ⟨?_, ?_⟩, hproc, ?_, ?_, ?_, ?_⟩
    · rwa [hS]
    · rw [refs_freed hproc, hS]
      exact hfiles
    all_goals rw [hS]
    exact hl1
  have hne : np ≠ i := by
    rintro rfl
    exact hi hunused
  obtain ⟨-, htf0, hsz0⟩ := (hok np).unused hunused
  obtain ⟨hnone, hcwd⟩ := (hok np).closed (.inl hunused)
  have hfresh : ∀ p, (own p).Avail np r → own p = .free := fun p => h.procs.fresh htf0 hrfree
  have hi1 := (hok i).live hi
  generalize hP : ({ S.proc np with
    pid := S.nextpid, state := .USED, trapframe := tf, pagetable := r } : Proc) = P at hp1 ⊢
  replace hp1 : Procs own1 m1 (update S.proc np P) := hp1
  have hPr : P.pagetable = r := by rw [← hP]
  have hPt : P.trapframe = tf := by rw [← hP]
  have hPsz : P.sz = 0 := by rw [← hP, ← hsz0]
  have hPpid : P.pid = S.nextpid := by rw [← hP]
  simp only [wp_bind, wp_get, wp_onMem, update_self, update_of_ne hne.symm]
  -- the address spaces of the parent and of the child before the copy
  have hold := hp1.image i (by rw [update_of_ne hne.symm]; exact hi1.1)
  have hnew := hp1.image np (by rw [update_self, hPr]; exact hr)
  rw [update_of_ne hne.symm] at hold
  rw [update_self, hPr, hPsz] at hnew
  have hrold : (S.proc i).pagetable ≠ r := h.procs.ne_fresh hi1.1 hrfree
  have hnot : ∀ o : Owner, o.Of i (S.proc i).pagetable → ¬ o.Avail np r := by
    rintro o ho (rfl | ho')
    · cases ho
    · exact ho'.disjoint hne.symm (fun _ => hrold) ho
  rw [hPr]
  refine (uvmcopy_spec hp1.heap.kmem hp1.heap.tables hold.space hnew.space hrold).mono ?_
  rintro copied m2 ⟨own2, hg⟩
  have hl2 := hl1.trans (hg.grows.isLocal.mono fun o ho => ho.avail hr)
  have hresize : ∀ sz', pages sz' = (if copied = true then pages (S.proc i).sz else 0) →
      Procs own2 m2 (update S.proc np (P.withSz sz')) := by
    intro sz' hsz'
    have : Procs own2 m2 (update (update S.proc np P) np ((update S.proc np P np).withSz sz')) :=
      hp1.resize (by rw [update_self, hPr]; exact hr) (hp1.heap.grown hg) ?_ ?_
    · rwa [update_self, update_idem] at this
    · rw [update_self, hPr, hsz']
      exact hnew.grown hg
    · rw [update_self, hPr]
      exact hg.grows.isLocal
  cases copied with
  | false =>
    have hp2 := hresize 0 rfl
    have hsame : P.withSz 0 = P := by rw [← hPsz]; rfl
    rw [hsame] at hp2
    rw [if_pos rfl, wp_bind]
    have hl2' : Local (Owner.Avail np (update S.proc np P np).pagetable) own own2 S.mem
        m2 := by
      rwa [update_self, hPr]
    refine (freeproc_undo hp2 hl2' ?_).mono ?_
    · simpa only [update_self, hPr] using hfresh
    rintro _ _ ⟨m', rfl, hp', hl'⟩
    have hproc : ∀ j, update S.proc np P.freed j = S.proc j ∨
        (S.proc j).state = .UNUSED ∧ update S.proc np P.freed j = (S.proc j).freed := by
      intro j
      by_cases hj : j = np
      · subst hj
        rw [update_self, ← hP]
        exact .inr ⟨hunused, rfl⟩
      · exact .inl (update_of_ne hj ..)
    simp only [update_self, update_idem] at hp' ⊢
    refine .inl ⟨rfl, ⟨hp', ?_⟩, hproc, hl', rfl, rfl, rfl⟩
    rw [refs_freed hproc]
    exact h.files.other hl' (by simp) fun p => h.aligned
  | true =>
    have hp2 := hresize (S.proc i).sz rfl
    rw [if_neg (by simp), wp_bind]
    have hfiles : Files own2 m2 (refs (update S.proc np P)) S.file := by
      rw [refs_update (by rw [← hP])]
      exact h.files.other hl2 Owner.not_avail_pipe fun p => h.aligned
    have hshare := forkShare_spec (E := E) (S := { S with
      mem := m2, nextpid := pid, proc := update S.proc np P }) hne
      (by simpa only [update_self, update_idem, update_of_ne hne.symm] using hp2) hfiles
      (by simpa only [update_self, ← hP] using hnone)
      (by simpa only [update_self, ← hP] using hcwd)
      (by simpa only [update_self, hPt] using htf)
    simp only [update_self, update_idem, update_of_ne hne.symm]
      at hshare
    refine hshare.mono ?_
    rintro _ _ ⟨file', rfl, hsound, hfile⟩
    have hslot : (update S.proc np (P.childOf i (S.proc i)) np).pagetable = r ∧
        (update S.proc np (P.childOf i (S.proc i)) np).trapframe = tf := by
      rw [update_self]
      exact ⟨hPr, hPt⟩
    have htf2 : own2 tf = .trapframe np := (hsound.procs.trapframe np tf htf).mpr hslot.2
    have ht : Touches (· = .trapframe np) own2 m2 (m2.copyFrame (S.proc i).trapframe tf) :=
      .copyFrame (hsound.procs.isPool htf2 (by simp)).1 htf2
    have hdata : ∀ o, o = Owner.trapframe np → o.Data := by
      rintro o rfl
      simp [Owner.Data]
    have hown : own (S.proc i).trapframe = .trapframe i := (h.procs.trapframe i _ hi1.2).mpr rfl
    rw [wp_pure, hPpid]
    refine .inr ⟨np, own2, rfl, hunused, hsound, ⟨tf, r, htf, hr, ?_⟩, ?_, ?_, ?_, ?_, hfile, rfl, rfl⟩
    · rw [← hP]
      rfl
    · rw [hslot.1, hPt]
      refine hl2.trans (ht.isLocal.mono ?_)
      rintro o rfl
      exact .inr .trapframe
    · rw [hslot.1]
      exact hfresh
    · intro k hk
      obtain ⟨pte, hpte, ⟨pte0, hpte0, hflags, hpage⟩, hfree⟩ := hg.new k (Nat.zero_le _) hk
      obtain ⟨pte', hpte', -, hown', -⟩ := hg.space.mapped k hk
      rw [hpte] at hpte'
      cases hpte'
      have hmap0 : mapping S.mem (S.proc i).pagetable (k * 4096) = some pte0 := by
        rw [← hl1.mapping h.procs.heap.tables (h.procs.image i hi1.1).space.root
          (fun path => hnot _ (.table path hi1.1))]
        exact hpte0
      obtain ⟨pte0', hpte0', -, hown0, -⟩ := (h.procs.image i hi1.1).space.mapped k hk
      rw [hmap0] at hpte0'
      cases hpte0'
      rw [hslot.1, hPt]
      refine ⟨pte, ?_, ⟨pte0, hmap0, hflags, ?_⟩, ?_⟩
      · rw [ht.mapping hg.grows.tables hdata hg.space.root]
        exact hpte
      · rw [ht.page _ (PTE2PA_aligned _) (by simp [hown']), hpage]
        exact hl1.frame _ (PTE2PA_aligned _) (by rw [hown0]; exact hnot _ (.user k hi1.1))
      · rcases hl1.owner (PTE2PA pte) with hsame | ⟨hav, -⟩
        · exact hsame.symm.trans hfree
        · exact hfresh _ hav
    · intro k hk
      have hpool := h.procs.isPool hown (by simp)
      have hpage : m2.page ((S.proc i).trapframe / PGSIZE) = S.mem.page _ :=
        hl2.frame _ hpool.1 (by rw [hown]; exact hnot _ .trapframe)
      rw [hslot.2, hPt, Mem.word_copyFrame hpool.1 (hsound.procs.isPool htf2 (by simp)).1 hk,
        Mem.word_congr hpage]

/-- What holds between calls. The kernel has the pages `B` since boot. -/
structure Shape (B : List Nat) (own : Nat → Owner) (S : Sys) : Prop where
  sound : Sound own (refs S.proc) S
  ok : ∀ i, (S.proc i).Ok
  boot : ∀ p, own p = .boot ↔ p ∈ B
  held : ∀ p, own p ≠ .held

theorem Shape.step (h : Shape B own S) (hs : Sound own' (refs S'.proc) S')
    (hok : ∀ i, (S'.proc i).Ok) (hl : Local M own own' S.mem S'.mem) (hboot : ¬ M .boot)
    (hheld : ¬ M .held) : Shape B own' S' :=
  ⟨hs, hok, fun p => (hl.kept hboot).trans (h.boot p), fun p hp => h.held p ((hl.kept hheld).mp hp)⟩

/-- The pages of a process that are still its own have not changed. -/
structure Spared (own own' : Nat → Owner) (j : Fin NPROC) (S S' : Sys) : Prop where
  proc : (S'.proc j).pagetable = (S.proc j).pagetable ∧ (S'.proc j).sz = (S.proc j).sz ∧
    (S'.proc j).trapframe = (S.proc j).trapframe
  loc : ∃ M, Local M own own' S.mem S'.mem ∧ ∀ o : Owner, o.Of j (S.proc j).pagetable → ¬ M o

/-- The process `i` has made a call. -/
def Called (B : List Nat) (i : Fin NPROC) (own : Nat → Owner) (S S' : Sys) : Prop :=
  ∃ own', Shape B own' S' ∧ ∀ j, j ≠ i → (S.proc j).state ≠ .UNUSED →
    (S'.proc j).state ≠ .UNUSED → Spared own own' j S S'

theorem Procs.not_avail {o : Owner} (h : Procs own m proc) (hij : j ≠ i)
    (ho : o.Of j (proc j).pagetable) : ¬ o.Avail i (proc i).pagetable := by
  rintro (rfl | hi)
  · cases ho
  · exact h.disjoint hij hi ho

section

omit [Machine]

theorem Owner.not_avail_boot : ¬ Owner.Avail i r .boot ∧ ¬ Owner.Avail i r .held := by
  constructor <;> rintro (h | h) <;> cases h

theorem Proc.Ok.of_live {p : Proc} (h1 : p.state ≠ .UNUSED) (h2 : p.state ≠ .ZOMBIE)
    (hp : p.pagetable ≠ 0) (ht : p.trapframe ≠ 0) : p.Ok :=
  ⟨fun h => absurd h h1, fun _ => ⟨hp, ht⟩, fun h => (h.elim h1 h2).elim⟩

theorem Proc.Ok.freed {p : Proc} (h : p.Ok) (hp : p.state = .UNUSED ∨ p.state = .ZOMBIE) :
    p.freed.Ok :=
  ⟨fun _ => ⟨rfl, rfl, rfl⟩, fun h => absurd rfl h, fun _ => h.closed hp⟩

theorem Proc.Ok.updated {q : Proc} (h : ∀ j, (proc j).Ok) (hq : q.Ok)
    (j : Fin NPROC) : (update proc i q j).Ok := by
  by_cases hj : j = i
  · rw [hj, update_self]
    exact hq
  · rw [update_of_ne hj]
    exact h j

end

theorem Sound.other (h : Sound own (refs S.proc) S) {proc' : Fin NPROC → Proc} {iref : Nat → Nat}
    {pid : Nat} {init : Fin NPROC} (hp : Procs own' m' proc') (hl : Local M own own' S.mem m')
    (hM : ¬ M .pipe) (hrefs : refs proc' = refs S.proc) :
    Sound own' (refs proc')
      { S with mem := m', proc := proc', iref := iref, nextpid := pid, initproc := init } := by
  refine ⟨hp, ?_⟩
  rw [hrefs]
  exact h.files.other hl hM fun _ => h.aligned

theorem Unforked.shape (h : Shape B own S) (hu : Unforked own S S') : Shape B own S' := by
  refine h.step hu.sound (fun j => ?_) hu.loc (by simp) (by simp)
  rcases hu.proc j with hj | ⟨hunused, hj⟩
  · rw [hj]
    exact h.ok j
  · rw [hj]
    exact (h.ok j).freed (.inl hunused)

theorem Unforked.spared (hu : Unforked own S S') (hj : (S.proc j).state ≠ .UNUSED) :
    S'.proc j = S.proc j ∧ Spared own own j S S' := by
  rcases hu.proc j with hsame | ⟨hunused, -⟩
  · refine ⟨hsame, by simp only [hsame, and_self], _, hu.loc, ?_⟩
    rintro o ho rfl
    cases ho
  · exact absurd hunused hj

theorem Forked.shape (h : Shape B own S) (hf : Forked own own' i np S S') : Shape B own' S' := by
  refine h.step hf.sound ?_ hf.loc Owner.not_avail_boot.1 Owner.not_avail_boot.2
  obtain ⟨tf, r, htf, hr, hproc⟩ := hf.proc
  rw [hproc]
  exact Proc.Ok.updated h.ok (.of_live (by simp [Proc.childOf]) (by simp [Proc.childOf]) hr htf)

theorem Forked.spared (hf : Forked own own' i np S S') (hj : (S.proc j).state ≠ .UNUSED) :
    Spared own own' j S S' := by
  obtain ⟨tf, r, htf, hr, hproc⟩ := hf.proc
  have hne : j ≠ np := by
    rintro rfl
    exact hj hf.unused
  have hsame : S'.proc j = S.proc j := by
    rw [hproc, update_of_ne hne]
  refine ⟨by simp only [hsame, and_self], _, hf.loc, fun o ho => ?_⟩
  rw [← hsame] at ho
  exact hf.sound.procs.not_avail hne ho

theorem Shape.fork (h : Shape B own S) (hi : (S.proc i).state = .RUNNABLE) :
    Wp E (Vm.fork i) S fun _ S' => Called B i own S S' := by
  refine (fork_spec h.sound h.ok (by rw [hi]; simp)).mono ?_
  rintro _ S' (⟨-, hu⟩ | ⟨np, own', -, hf⟩)
  · exact ⟨own, hu.shape h, fun j _ hj _ => (hu.spared hj).2⟩
  · exact ⟨own', hf.shape h, fun j _ hj _ => hf.spared hj⟩

theorem Undone.shape (hu : Undone own S S') (h : Shape B own S) : Shape B own S' := by
  have hsame : S'.proc = S.proc ∧ S'.file = S.file := by
    rw [hu.sys]
    exact ⟨rfl, rfl⟩
  refine h.step ⟨hu.procs, ?_⟩ ?_ hu.loc (by simp) (by simp)
  · rw [hsame.1, hsame.2]
    exact h.sound.files.other hu.loc (by simp) fun p hp => (h.sound.procs.isPool hp (by simp)).1
  · rw [hsame.1]
    exact h.ok

theorem Undone.spared (hu : Undone own S S') : Spared own own j S S' := by
  refine ⟨?_, _, hu.loc, ?_⟩
  · rw [hu.sys]
    exact ⟨rfl, rfl, rfl⟩
  · rintro o ho rfl
    cases ho

variable (h : Shape B own S) (hi : (S.proc i).state = .RUNNABLE)

section

include h hi

theorem Shape.exec {path file : Option (List UInt8)} {uargv : Nat} :
    Wp E (sysExec i path file uargv) S fun _ S' => Called B i own S S' := by
  have hlive := (h.ok i).live (by rw [hi]; simp)
  refine (sysExec_spec h.sound.procs h.held hlive.1 hlive.2).mono ?_
  rintro _ S' (⟨-, hu⟩ | ⟨path, l, m1, own', -, hr⟩)
  · exact ⟨own, hu.shape h, fun j _ _ _ => hu.spared⟩
  obtain ⟨hroot, hsys, hp, hl, -, -⟩ := hr
  generalize S'.mem = m' at hsys hp hl
  subst hsys
  refine ⟨own', h.step (h.sound.other hp hl ?_ (refs_update rfl)) ?_ hl ?_ ?_, fun j hj _ _ => ?_⟩
  · exact fun hm => hm.elim Owner.not_avail_pipe Owner.not_avail_pipe
  · exact Proc.Ok.updated h.ok (.of_live (by simp [Proc.running, hi]) (by simp [Proc.running, hi])
      hroot hlive.2)
  · exact fun hm => hm.elim Owner.not_avail_boot.1 Owner.not_avail_boot.1
  · exact fun hm => hm.elim Owner.not_avail_boot.2 Owner.not_avail_boot.2
  refine ⟨by simp only [update_of_ne hj, and_self], _, hl, fun o ho hm => ?_⟩
  rcases hm with hm | hm
  · exact h.sound.procs.not_avail hj ho hm
  · have := hp.not_avail (i := i) (o := o) hj (by simpa only [update_of_ne hj] using ho)
    simp only [update_self] at this
    exact this hm

theorem Shape.sbrk (n : Int32) : Wp E (growproc i n.toInt) S fun _ S' => Called B i own S S' := by
  have hlive := (h.ok i).live (by rw [hi]; simp)
  refine (growproc_spec h.sound.procs hlive.1 n.le_toInt n.toInt_lt).mono ?_
  rintro _ _ ⟨own', m', sz', rfl, hr, -, -⟩
  have hp := h.sound.procs.resize hlive.1 hr.heap hr.image hr.loc
  have hnot : ∀ {o}, (¬ Owner.Avail i (S.proc i).pagetable o) →
      ¬ Owner.Tree (S.proc i).pagetable o := fun hno ht => hno (ht.avail hlive.1)
  refine ⟨own', h.step (h.sound.other hp hr.loc (hnot Owner.not_avail_pipe) (refs_update rfl)) ?_
    hr.loc (hnot Owner.not_avail_boot.1) (hnot Owner.not_avail_boot.2), fun j hj _ _ => ?_⟩
  · refine Proc.Ok.updated h.ok (.of_live ?_ ?_ hlive.1 hlive.2)
    all_goals simp [Proc.withSz, hi]
  · exact ⟨by simp only [update_of_ne hj, and_self], _, hr.loc, fun o ho =>
      hnot (h.sound.procs.not_avail hj ho)⟩

theorem Shape.filed (hf : Filed own own' i S S') : Called B i own S S' := by
  have hlive := (h.ok i).live (by rw [hi]; simp)
  obtain ⟨ofile, hproc⟩ := hf.proc
  refine ⟨own', h.step hf.sound ?_ hf.loc ?_ ?_, fun j hj _ _ => ?_⟩
  · rw [hproc]
    refine Proc.Ok.updated h.ok (.of_live ?_ ?_ hlive.1 hlive.2)
    all_goals simp [Proc.withFiles, hi]
  · simp [Owner.FiledOr, Owner.Filed, Owner.User]
  · simp [Owner.FiledOr, Owner.Filed, Owner.User]
  · refine ⟨by simp only [hproc, update_of_ne hj, and_self], _, hf.loc, ?_⟩
    rintro o ho ((rfl | rfl) | ⟨k, rfl⟩)
    · cases ho
    · cases ho
    · exact h.sound.procs.not_avail hj ho (.inr (.user k hlive.1))

end

theorem Sound.congr (h : Sound own (refs S.proc) S) (proc' : Fin NPROC → Proc) (iref : Nat → Nat)
    (hsame : ∀ j, (proc' j).pagetable = (S.proc j).pagetable ∧ (proc' j).sz = (S.proc j).sz ∧
      (proc' j).trapframe = (S.proc j).trapframe)
    (hofile : ∀ j, (proc' j).ofile = (S.proc j).ofile) :
    Sound own (refs proc') { S with proc := proc', iref := iref } := by
  refine ⟨h.procs.congr hsame, ?_⟩
  rw [refs_congr hofile]
  exact h.files

def Proc.exited (p : Proc) (status : Nat) : Proc :=
  { p with cwd := none, xstate := status, state := .ZOMBIE }

def Proc.reparented (p : Proc) (i initproc : Fin NPROC) : Proc :=
  if p.parent = some i then { p with parent := some initproc } else p

omit [Machine] in
theorem Proc.reparented_eq (p : Proc) (i k : Fin NPROC) :
    p.reparented i k = { p with parent := (p.reparented i k).parent } := by
  rw [reparented]
  split_ifs <;> rfl

def exitedIn (proc : Fin NPROC → Proc) (i initproc : Fin NPROC) (status : Nat) (j : Fin NPROC) :
    Proc :=
  if j = i then ((proc j).reparented i initproc).exited status else (proc j).reparented i initproc

variable {status : Nat}

omit [Machine] in
/-- The end of `exit`, after the files are closed. -/
theorem wp_exitTail {Q : Unit → Sys → Prop}
    (h : Q () { S with proc := exitedIn S.proc i S.initproc status }) :
    Wp E (do
      setProc i fun p => { p with cwd := none }
      reparent i
      setProc i fun p => { p with xstate := status, state := .ZOMBIE }) S Q := by
  simp only [wp_bind, wp_setProc, reparent, wp_modify]
  convert h using 3
  funext j
  by_cases hj : j = i
  · subst hj
    simp only [update_self, exitedIn, if_true, Proc.reparented, Proc.exited]
    split_ifs <;> rfl
  · simp only [update_of_ne hj, exitedIn, if_neg hj, Proc.reparented]

omit [Machine] in
theorem exitedIn_eq (proc : Fin NPROC → Proc) (i k : Fin NPROC) (status : Nat) (j : Fin NPROC) :
    ∃ parent cwd xstate state, exitedIn proc i k status j =
      { proc j with parent := parent, cwd := cwd, xstate := xstate, state := state } := by
  rw [exitedIn, Proc.reparented_eq]
  split_ifs <;> exact ⟨_, _, _, _, rfl⟩

theorem exit_spec (h : Sound own (refs S.proc) S) (hi : i ≠ S.initproc) :
    Wp E (exit i status) S fun _ S' => ∃ own', Sound own' (refs S'.proc) S' ∧
      S'.proc = exitedIn (update S.proc i ((S.proc i).withFiles fun _ => none)) i
        S.initproc status ∧
      Local Owner.Filed own own' S.mem S'.mem := by
  rw [exit, wp_bind, wp_get, if_neg hi]
  refine (closeFiles_spec h).bind ?_
  rintro _ S1 ⟨own', h1, hproc, hinit, hl⟩
  simp only [mem_finRange, if_true] at hproc
  have hsound : ∀ iref, Sound own' (refs (exitedIn S1.proc i S1.initproc status))
      { S1 with iref := iref, proc := exitedIn S1.proc i S1.initproc status } := by
    intro iref
    refine h1.congr _ iref (fun j => ?_) fun j => ?_
    all_goals
      obtain ⟨parent, cwd, xstate, state, heq⟩ := exitedIn_eq S1.proc i S1.initproc status j
      simp only [heq, and_self]
  rw [← hproc, ← hinit]
  cases hc : (S.proc i).cwd with
  | none => exact wp_exitTail ⟨own', hsound _, rfl, hl⟩
  | some ip =>
    rw [wp_bind, iput, wp_modify]
    exact wp_exitTail ⟨own', hsound _, rfl, hl⟩

theorem Shape.exit (h : Shape B own S) (hi : (S.proc i).state = .RUNNABLE)
    (hinit : i ≠ S.initproc) :
    Wp E (Vm.exit i status) S fun _ S' => Called B i own S S' := by
  have hlive := (h.ok i).live (by rw [hi]; simp)
  refine (exit_spec h.sound hinit).mono ?_
  rintro _ S' ⟨own', hs, hproc, hl⟩
  have hother : ∀ j, j ≠ i → S'.proc j =
      { S.proc j with parent := ((S.proc j).reparented i S.initproc).parent } := by
    intro j hj
    rw [hproc, exitedIn, if_neg hj, update_of_ne hj, ← Proc.reparented_eq]
  refine ⟨own', h.step hs (fun j => ?_) hl (by simp [Owner.Filed]) (by simp [Owner.Filed]),
    fun j hj _ _ => ?_⟩
  · by_cases hj : j = i
    · subst hj
      rw [hproc, exitedIn, if_pos rfl, Proc.reparented_eq, update_self]
      refine ⟨fun hj => ?_, fun _ => hlive, fun _ => ⟨fun _ => rfl, rfl⟩⟩
      cases hj
    · rw [hother j hj]
      exact ⟨(h.ok j).unused, (h.ok j).live, (h.ok j).closed⟩
  · refine ⟨by simp only [hother j hj, and_self], _, hl, ?_⟩
    rintro o ho (rfl | rfl) <;> cases ho

variable {addr : Nat}

theorem copyXstate_spec {n tf xstate : Nat} (h : Image own m r n tf) (ht : Tables own m) :
    Wp E (copyXstate r addr xstate) m fun _ m' => Touches (Owner.User r) own m m' := by
  rw [copyXstate]
  split_ifs
  · exact .refl
  · exact h.copyout ht _ _

/-- Pages of the user, and those that `freeproc` gives back. -/
def Owner.Reaped (r : Nat) (j : Fin NPROC) (r' : Nat) (o : Owner) : Prop := o.User r ∨ o.Avail j r'

theorem wait_spec (h : Sound own (refs S.proc) S) (hi : (S.proc i).pagetable ≠ 0) :
    Wp E (wait i addr) S fun res S' => ∃ own', Sound own' (refs S'.proc) S' ∧
      (res = none ∧ S'.proc = S.proc ∧
          Local (Owner.User (S.proc i).pagetable) own own' S.mem S'.mem ∨
        ∃ j, res = some (S.proc j).pid ∧ (S.proc j).state = .ZOMBIE ∧
          S'.proc = update S.proc j (S.proc j).freed ∧
          Local (Owner.Reaped (S.proc i).pagetable j (S.proc j).pagetable) own own' S.mem
            S'.mem) := by
  rw [wait, wp_bind, wp_get]
  generalize hfind : ((finRange NPROC).find? fun j =>
    (S.proc j).parent = some i ∧ (S.proc j).state = .ZOMBIE) = slot
  cases slot with
  | none => exact ⟨own, h, .inl ⟨rfl, rfl, .refl⟩⟩
  | some j =>
    have hj : (S.proc j).parent = some i ∧ (S.proc j).state = .ZOMBIE := by
      simpa using List.find?_some hfind
    rw [wp_bind, wp_onMem]
    refine (copyXstate_spec (h.procs.image i hi) h.procs.heap.tables).mono ?_
    intro copied m1 ht
    have h1 := h.touches ht (fun o => Owner.User.data) (by simp [Owner.User])
    rw [wp_ite]
    split_ifs
    · exact ⟨own, h1, .inl ⟨rfl, rfl, ht.isLocal⟩⟩
    refine (freeproc_spec h1.procs).bind ?_
    rintro _ _ ⟨own', m', rfl, hp, hl, -⟩
    have hl2 : Local (Owner.Reaped (S.proc i).pagetable j (S.proc j).pagetable) own own' S.mem
        m' := (ht.isLocal.mono fun o => .inl).trans (hl.mono fun o => .inr)
    refine ⟨own', h.other hp hl2 ?_ (refs_update rfl), .inr ⟨j, rfl, hj.2, rfl, hl2⟩⟩
    exact fun hm => hm.elim (by simp [Owner.User]) Owner.not_avail_pipe

include h hi

theorem Shape.wait : Wp E (Vm.wait i addr) S fun _ S' => Called B i own S S' := by
  have hlive := (h.ok i).live (by rw [hi]; simp)
  have huser : ∀ {j o}, j ≠ i → Owner.Of j (S.proc j).pagetable o →
      ¬ o.User (S.proc i).pagetable := by
    rintro j o hj ho ⟨k, rfl⟩
    exact h.sound.procs.not_avail hj ho (.inr (.user k hlive.1))
  refine (wait_spec h.sound hlive.1).mono ?_
  rintro res S' ⟨own', hs, ⟨-, hproc, hl⟩ | ⟨c, -, hzombie, hproc, hl⟩⟩
  · refine ⟨own', h.step hs ?_ hl (by simp [Owner.User]) (by simp [Owner.User]), fun j hj _ _ => ?_⟩
    · rw [hproc]
      exact h.ok
    · exact ⟨by simp only [hproc, and_self], _, hl, fun o => huser hj⟩
  refine ⟨own', h.step hs ?_ hl ?_ ?_, fun j hj _ hused => ?_⟩
  · rw [hproc]
    exact Proc.Ok.updated h.ok ((h.ok c).freed (.inr hzombie))
  · exact fun hm => hm.elim (by simp [Owner.User]) Owner.not_avail_boot.1
  · exact fun hm => hm.elim (by simp [Owner.User]) Owner.not_avail_boot.2
  have hjc : j ≠ c := by
    rintro rfl
    rw [hproc, update_self] at hused
    exact hused rfl
  refine ⟨by simp only [hproc, update_of_ne hjc, and_self], _, hl, ?_⟩
  exact fun o ho hm => hm.elim (huser hj ho) (h.sound.procs.not_avail hjc ho)

omit h hi in
theorem Shape.kill (h : Shape B own S) {pid : Nat} :
    Wp E (Vm.kill pid) S fun _ S' => Called B i own S S' := by
  have hl : Local (fun _ => False) own own S.mem S.mem := .refl
  rw [Vm.kill, wp_bind, wp_get]
  cases (finRange NPROC).find? fun j => (S.proc j).pid = pid with
  | none => exact ⟨own, h, fun j _ _ _ => ⟨⟨rfl, rfl, rfl⟩, _, hl, fun _ _ => id⟩⟩
  | some c =>
    simp only [wp_bind, wp_setProc, wp_pure]
    refine ⟨own, h.step (h.sound.other (h.sound.procs.updated rfl rfl rfl) hl id
      (refs_update rfl)) (Proc.Ok.updated h.ok ?_) hl id id, fun j _ _ _ =>
        ⟨?_, _, hl, fun _ _ => id⟩⟩
    · obtain ⟨hunused, hlive, hclosed⟩ := h.ok c
      by_cases hs : (S.proc c).state = .SLEEPING
      · simp only [hs, if_true]
        exact .of_live (by simp) (by simp) (hlive (by simp [hs])).1 (hlive (by simp [hs])).2
      · simp only [if_neg hs]
        exact ⟨hunused, hlive, hclosed⟩
    · by_cases hj : j = c
      · subst hj
        simp only [update_self, and_self]
      · simp only [update_of_ne hj, and_self]

omit h hi in
/-- A store of the user writes to a page of the user. -/
theorem store_spec {va : Nat} {b : UInt8} (h : Sound own (refs S.proc) S)
    (hi : (S.proc i).pagetable ≠ 0) :
    Wp E (store i va b) S fun _ S' => ∃ m', S' = { S with mem := m' } ∧
      Touches (Owner.User (S.proc i).pagetable) own S.mem m' := by
  rw [store, wp_bind, wp_get, wp_ite]
  split_ifs with hw
  · rw [wp_onMem, wp_modify]
    refine ⟨_, rfl, ?_⟩
    have himage := h.procs.image i hi
    obtain ⟨-, hown, hpool⟩ :=
      himage.space.readable (fun _ hva hle => himage.not_readable hva hle) hw.1
    refine Touches.setBytes hpool.1 (Nat.le_add_right _ _) ?_ ⟨_, hown⟩
    rw [phys, Nat.add_assoc]
    exact Nat.add_le_add_left (Nat.mod_lt _ (by decide)) _
  · exact ⟨S.mem, rfl, .refl⟩

theorem Shape.store {va : Nat} {b : UInt8} :
    Wp E (Vm.store i va b) S fun _ S' => Called B i own S S' := by
  have hlive := (h.ok i).live (by rw [hi]; simp)
  refine (store_spec h.sound hlive.1).mono ?_
  rintro _ _ ⟨m', rfl, ht⟩
  refine ⟨own, h.step (h.sound.touches ht (fun o => Owner.User.data) (by simp [Owner.User])) h.ok
    ht.isLocal (by simp [Owner.User]) (by simp [Owner.User]), fun j hj _ _ =>
      ⟨⟨rfl, rfl, rfl⟩, _, ht.isLocal, ?_⟩⟩
  rintro o ho ⟨k, rfl⟩
  exact h.sound.procs.not_avail hj ho (.inr (.user k hlive.1))

/-- No call panics, but for the `exit` of the first process. Calls keep the shape and the pages of
other processes. -/
theorem Shape.call (c : Call) (hexit : ∀ status, c = .exit status → i ≠ S.initproc) :
    Wp E (Vm.call i c) S fun _ S' => Called B i own S S' := by
  have hlive := (h.ok i).live (by rw [hi]; simp)
  cases c <;> simp only [Vm.call, wp_discard]
  case fork => exact h.fork hi
  case exec path file uargv => exact h.exec hi
  case sbrk n => exact h.sbrk hi n
  case pipe fdarray =>
    refine (sysPipe_spec h.sound hlive.1).mono ?_
    rintro _ S' ⟨own', hf⟩
    exact h.filed hi hf
  case close fd =>
    refine (sysClose_spec h.sound).mono ?_
    rintro _ S' ⟨own', hf⟩
    exact h.filed hi hf
  case exit status => exact h.exit hi (hexit status rfl)
  case wait addr => exact h.wait hi
  case kill pid => exact h.kill
  case store va b => exact h.store hi

end Xv6.Vm
