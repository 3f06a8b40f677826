import Xv6.Framework.Transition

namespace Xv6.Proc

open Function Transition

variable {C T : Type}

/-- `struct cpu`, with the SIE bit of its `sstatus`. -/
structure Cpu (T : Type) where
  sie : Bool
  noff : Nat
  intena : Bool
  proc : Option T

def Cpu.pushOff (k : Cpu T) : Cpu T :=
  { k with sie := false, intena := if k.noff = 0 then k.sie else k.intena, noff := k.noff + 1 }

/-- `none` is a panic. -/
def Cpu.popOff (k : Cpu T) : Option (Cpu T) :=
  if k.sie ∨ k.noff < 1 then none
  else some { k with
    noff := k.noff - 1, sie := if k.noff - 1 = 0 ∧ k.intena then true else k.sie }

/-- `sched` up to its `swtch`, and the scheduler's `c->proc = 0` after it: the local `intena` and
the CPU. -/
def Cpu.sched (k : Cpu T) : Option (Bool × Cpu T) :=
  if k.noff ≠ 1 ∨ k.sie then none else some (k.intena, { k with proc := none })

/-- The thread on CPU `c`: a process, or the CPU's scheduler. -/
def Cpu.cur (k : Cpu T) (c : C) : T ⊕ C :=
  k.proc.elim (.inr c) .inl

/-- A kernel thread: how many of its `push_off` are open, whether interrupts were on before the
outermost of them, and the local `intena` of its last `sched`. The latter two are unknown in a
thread that begins at `forkret`, with the lock the scheduler took. -/
structure KThread where
  depth : Nat
  outer : Option Bool
  intena : Option Bool

def KThread.pushOff (x : KThread) (sie : Bool) : KThread :=
  { x with depth := x.depth + 1, outer := if x.depth = 0 then some sie else x.outer }

def forkret : KThread := ⟨1, none, none⟩

/-- The CPUs, and the threads of the processes and of each CPU's scheduler. -/
structure Cpus (C T : Type) where
  cpu : C → Cpu T
  thread : T ⊕ C → KThread

namespace Cpus

def init : Cpus C T where
  cpu _ := ⟨false, 0, false, none⟩
  thread := Sum.elim (fun _ => forkret) fun _ => ⟨0, none, none⟩

def cur (s : Cpus C T) (c : C) : T ⊕ C :=
  (s.cpu c).cur c

def depth (s : Cpus C T) (c : C) : Nat :=
  (s.thread (s.cur c)).depth

/-- A CPU against the thread that runs on it: `noff` is the thread's, and so is `intena` in a
process. -/
def Fits (k : Cpu T) (x : KThread) : Prop :=
  k.noff = x.depth ∧ (0 < x.depth → k.sie = false) ∧
    ∀ b, k.proc ≠ none → 0 < x.depth → x.outer = some b → k.intena = b

def Parked (x : KThread) : Prop :=
  x.depth = 1 ∧ ∀ b, x.outer = some b → x.intena = some b

structure Nested (s : Cpus C T) : Prop where
  runs : ∀ c, Fits (s.cpu c) (s.thread (s.cur c))
  one : ∀ c d t, (s.cpu c).proc = some t → (s.cpu d).proc = some t → c = d
  parked : ∀ t, (∀ c, (s.cpu c).proc ≠ some t) → Parked (s.thread (.inl t))
  waits : ∀ c, (s.cpu c).proc ≠ none → (s.thread (.inr c)).depth = 1

variable {s s' : Cpus C T} {c d : C} {t : T} {k : Cpu T} {x : KThread} {i : T ⊕ C}

@[grind =]
theorem cur_eq_inl : k.cur c = .inl t ↔ k.proc = some t := by
  cases hk : k.proc <;> simp [Cpu.cur, hk]

@[grind =]
theorem cur_eq_inr : k.cur c = .inr d ↔ k.proc = none ∧ c = d := by
  cases hk : k.proc <;> simp [Cpu.cur, hk]

theorem Nested.cur_inj (h : s.Nested) (heq : s.cur c = s.cur d) : c = d := by
  cases hd : s.cur d with
  | inl t => exact h.one c d t (cur_eq_inl.mp (heq.trans hd)) (cur_eq_inl.mp hd)
  | inr e => exact (cur_eq_inr.mp (heq.trans hd)).2.trans (cur_eq_inr.mp hd).2.symm

theorem nested_init : (init : Cpus C T).Nested := by
  constructor <;> simp [init, Fits, Parked, forkret, cur, Cpu.cur]

variable [DecidableEq C] [DecidableEq T]

def set (s : Cpus C T) (c : C) (k : Cpu T) (i : T ⊕ C) (x : KThread) : Cpus C T :=
  ⟨update s.cpu c k, update s.thread i x⟩

@[grind =]
theorem set_cpu : (s.set c k i x).cpu d = if d = c then k else s.cpu d :=
  update_apply ..

@[grind =]
theorem set_thread (j : T ⊕ C) :
    (s.set c k i x).thread j = if j = i then x else s.thread j :=
  update_apply ..

/-- What a CPU does to interrupts. `intr` is `intr_on`, `intr_off`, a trap or its return, which all
happen outside of `push_off`; a process that enters `sched` holds its own lock only. -/
inductive Step (s : Cpus C T) (c : C) : Cpus C T → Prop
  | pushOff : Step s c
      (s.set c (s.cpu c).pushOff (s.cur c) ((s.thread (s.cur c)).pushOff (s.cpu c).sie))
  | popOff {k : Cpu T} (hdepth : 0 < s.depth c) (hpop : (s.cpu c).popOff = some k) : Step s c
      (s.set c k (s.cur c) { s.thread (s.cur c) with depth := s.depth c - 1 })
  | intr (b : Bool) (hdepth : s.depth c = 0) : Step s c
      (s.set c { s.cpu c with sie := b } (s.cur c) (s.thread (s.cur c)))
  | sched {t : T} {b : Bool} {k : Cpu T} (hproc : (s.cpu c).proc = some t) (hdepth : s.depth c = 1)
      (hsched : (s.cpu c).sched = some (b, k)) : Step s c
      (s.set c k (.inl t) { s.thread (.inl t) with intena := some b })
  -- A process that `sched` left then restores its local `intena`.
  | swtch {t : T} (hidle : (s.cpu c).proc = none) (hdepth : s.depth c = 1)
      (hfree : ∀ d, (s.cpu d).proc ≠ some t) : Step s c
      (s.set c { s.cpu c with
          proc := some t, intena := (s.thread (.inl t)).intena.getD (s.cpu c).intena }
        (.inl t) (s.thread (.inl t)))
  | allocproc {t : T} (hfree : ∀ d, (s.cpu d).proc ≠ some t) : Step s c
      (s.set c (s.cpu c) (.inl t) forkret)

namespace Nested

theorem runs_set (h : s.Nested) (hi : ∀ d, d ≠ c → s.cur d ≠ i)
    (hc : Fits k (update s.thread i x (k.cur c))) (d : C) :
    Fits ((s.set c k i x).cpu d) ((s.set c k i x).thread ((s.set c k i x).cur d)) := by
  by_cases hd : d = c
  · subst hd
    simpa [cur, set] using hc
  · have hne := hi d hd
    simp only [cur] at hne
    simpa [cur, set, hd, hne] using h.runs d

theorem parked_set (h : s.Nested) (hparked : ∀ d, ((s.set c k i x).cpu d).proc ≠ some t)
    (hne : .inl t ≠ i) (hc : (s.cpu c).proc ≠ some t) :
    Parked ((s.set c k i x).thread (.inl t)) := by
  have hfree : ∀ d, (s.cpu d).proc ≠ some t := fun d => by
    have := hparked d
    grind
  simpa [set, hne] using h.parked t hfree

/-- What a thread does to itself and its CPU. -/
theorem here (h : s.Nested) (hproc : k.proc = (s.cpu c).proc) (hfits : Fits k x) :
    (s.set c k (s.cur c) x).Nested := by
  have hcur : k.cur c = s.cur c := by rw [Cpu.cur, hproc, cur, Cpu.cur]
  refine ⟨h.runs_set (fun d hd heq => hd (h.cur_inj heq)) ?_, ?_, fun t ht => ?_, ?_⟩
  · simpa [hcur] using hfits
  · grind [h.one]
  · have hc := ht c
    refine h.parked_set ht ?_ ?_ <;> grind [cur]
  · grind [h.waits, cur]

theorem step (h : s.Nested) (hstep : s.Step c s') : s'.Nested := by
  have hruns := h.runs c
  cases hstep with
  | pushOff =>
    refine h.here rfl ?_
    grind [Fits, Cpu.pushOff, KThread.pushOff]
  | popOff hdepth hpop =>
    refine h.here (by grind [Cpu.popOff]) ?_
    grind [Cpu.popOff, Fits, depth]
  | intr b hdepth =>
    refine h.here rfl ?_
    grind [Fits, depth]
  | @sched t b k hproc hdepth hsched =>
    have hk : k = { s.cpu c with proc := none } ∧ b = (s.cpu c).intena := by grind [Cpu.sched]
    obtain ⟨rfl, rfl⟩ := hk
    have ht : s.cur c = .inl t := cur_eq_inl.mpr hproc
    refine ⟨h.runs_set (fun d hd heq => hd (h.cur_inj (heq.trans ht.symm))) ?_, ?_,
      fun u hu => ?_, ?_⟩
    · have hwait := h.waits c (by simp [hproc])
      have hcur : ({ s.cpu c with proc := none } : Cpu T).cur c = .inr c := rfl
      grind [Fits, depth, update_apply]
    · grind [h.one]
    · by_cases htu : u = t
      · grind [Parked, Fits, depth]
      · refine h.parked_set hu ?_ ?_ <;> grind
    · grind [h.waits]
  | @swtch t hidle hdepth hfree =>
    have hparked := h.parked t hfree
    refine ⟨h.runs_set (fun d _ heq => hfree d (cur_eq_inl.mp heq)) ?_, ?_, fun u hu => ?_, ?_⟩
    · rw [cur_eq_inl.mpr rfl]
      grind [Parked, Fits, depth, update_apply]
    · grind [h.one]
    · have hc := hu c
      refine h.parked_set hu ?_ ?_ <;> grind
    · grind [h.waits, depth, cur]
  | @allocproc t hfree =>
    refine ⟨h.runs_set (fun d _ heq => hfree d (cur_eq_inl.mp heq)) ?_, ?_, fun u hu => ?_, ?_⟩
    · grind [cur]
    · grind [h.one]
    · by_cases htu : u = t
      · grind [Parked, forkret]
      · have hc := hu c
        refine h.parked_set hu ?_ ?_ <;> grind
    · grind [h.waits]

end Nested

end Cpus

end Xv6.Proc
