import Xv6.Kernel.Proc.Writes

namespace Xv6.Proc

open Transition Function Relation

variable {n : Nat} {C M K : Type}

/-- The order in which spinlocks are taken. -/
def Lock.rank : Lock n M → Nat
  | .other _ => 0
  | .wait => 0
  | .proc _ => 1
  | .pid => 2

/-- A lock is only taken after locks that come before it, and only a lock that is held is given
back. -/
def Op.Ordered (held : List (Lock n M)) : Op n M K → Prop
  | .acquire ℓ => ∀ ℓ' ∈ held, ℓ'.rank < ℓ.rank
  | .release ℓ => ℓ ∈ held
  | _ => True

/-- How the state of a process may change. -/
def ProcState.next : ProcState → List ProcState
  | .UNUSED => [.USED]
  | .USED => [.RUNNABLE, .UNUSED]
  | .SLEEPING => [.RUNNABLE]
  | .RUNNABLE => [.RUNNING]
  | .RUNNING => [.SLEEPING, .RUNNABLE, .ZOMBIE]
  | .ZOMBIE => [.UNUSED]

namespace Kernel

variable [NeZero n]
variable {s s' : Kernel n C M K} {c c' : C} {t : Thread n C} {x : Ctl n M K} {op : Op n M K}
variable {inp : Input M K} {p : Fin n} {ls : List (C × Input M K)}

theorem runNext_ordered {pc : Pc n M} (hnext : s.runNext t pc inp = some (op, x)) :
    op.Ordered (pc.holds t) := by
  unfold runNext at hnext
  split at hnext
  · split_ifs at hnext with hfree
    cases hnext
    simp [Op.Ordered, hfree]
  split at hnext <;> split at hnext
  all_goals try first
    | unfold schedNext at hnext; split at hnext
    | unfold userNext at hnext; split at hnext
    | unfold critNext at hnext; split at hnext
    | unfold exitNext at hnext; split at hnext
    | unfold procNext at hnext; split at hnext
  all_goals try split_ifs at hnext
  all_goals cases hnext
  all_goals simp [Op.Ordered, Pc.holds, Lock.rank, Thread.own]

variable [DecidableEq M] [DecidableEq K]

omit [NeZero n] in
theorem wakeNext_ordered {self : Option (Fin n)} {w : Wake n M K} {w' : Option (Wake n M K)}
    {ℓ : Lock n M} (hnext : s.wakeNext self w = (op, w')) (hℓ : ℓ.rank = 0) :
    op.Ordered (ℓ :: w.pc.holds) := by
  have hproc : ∀ i, (Lock.proc i : Lock n M).rank = 1 := fun _ => rfl
  unfold wakeNext at hnext
  split at hnext
  all_goals try split_ifs at hnext
  all_goals cases hnext
  all_goals simp [Op.Ordered, WakePc.holds, *]

theorem next_ordered (hnext : s.next c t inp = some (op, x)) :
    op.Ordered ((s.ctl t).holds t) := by
  unfold next at hnext
  split at hnext
  · next hx =>
    rw [hx]
    exact runNext_ordered hnext
  · next w cont ok hx =>
    have hrank : (cont.lock : Lock n M).rank = 0 := by cases cont <;> rfl
    rw [hx]
    split at hnext
    all_goals
      next hw =>
      cases hnext
      exact wakeNext_ordered hw hrank
  · next pc cont p ok hx =>
    rw [hx]
    cases pc <;> cases hnext <;> cases cont <;>
      simp [Op.Ordered, Ctl.holds, SleepPc.holds, SleepCont.lock, Lock.rank, Thread.own]
  · next pc back p ok hx =>
    rw [hx]
    cases pc <;> cases hnext <;> simp [Op.Ordered, Ctl.holds, YieldPc.holds, Thread.own]
  · next m w back ok hx =>
    rw [hx]
    generalize hw : s.wakeNext (s.cproc c) w = r at hnext
    obtain ⟨op', w'⟩ := r
    cases hnext
    exact wakeNext_ordered hw rfl
  · cases hnext
    trivial
  · cases hnext
    trivial
  · next hx =>
    rw [hx]
    cases hnext
    exact .head _
  · cases hnext

/-- The CPU `c` may come to wait for a lock that the CPU `c'` holds. -/
def Waits (s : Kernel n C M K) (c c' : C) : Prop :=
  ∃ inp ℓ x, s.next c (s.cur c) inp = some (.acquire ℓ, x) ∧ s.lock ℓ = some c'

/-- Along a chain of CPUs that wait for each other, the locks come later and later. -/
theorem Core.waits_rank (h : Core s) (hw : TransGen s.Waits c c') :
    ∃ inp ℓ x, s.next c (s.cur c) inp = some (.acquire ℓ, x) ∧
      ∃ ℓ' ∈ s.held c', ℓ.rank ≤ ℓ'.rank := by
  induction hw with
  | single hw =>
    obtain ⟨inp, ℓ, x, hnext, hheld⟩ := hw
    exact ⟨inp, ℓ, x, hnext, ℓ, (h.locks ℓ _).mp hheld, le_rfl⟩
  | tail _ hw ih =>
    obtain ⟨inp, ℓ, x, hnext, ℓ1, hheld1, hle⟩ := ih
    obtain ⟨_, ℓ2, _, hnext2, hheld2⟩ := hw
    have hlt : ℓ1.rank < ℓ2.rank := next_ordered hnext2 ℓ1 hheld1
    exact ⟨inp, ℓ, x, hnext, ℓ2, (h.locks ℓ2 _).mp hheld2, hle.trans hlt.le⟩

variable [DecidableEq C]

/-- The life of a process. Whenever a step of a run changes the state of a slot, the CPU holds the
lock of the slot, and the state changes along the life cycle. -/
theorem states_follow_life_cycle (h : Run Step (init : Kernel n C M K) ls s)
    {l : C × Input M K} (hstep : s.Step l s') (hne : (s'.slot p).state ≠ (s.slot p).state) :
    s.lock (.proc p) = some l.1 ∧ (s'.slot p).state ∈ (s.slot p).state.next := by
  have hcore := core_run h
  obtain ⟨op, x, s1, hnext, hexec, rfl⟩ := hstep.parts
  rcases next_writes hnext with hs | hw
  · obtain ⟨f, rfl⟩ := exec_silent hs hexec
    exact absurd rfl hne
  have heff := exec_state hexec hne
  refine ⟨(hcore.locks _ _).mpr (hw.locked ?_), ?_⟩
  · cases op <;> cases congrArg (Option.map Prod.fst) heff <;> rfl
  generalize ht : s.cur l.1 = t at hw
  have hown : ∀ {q : Fin n}, t = .proc q → (s.slot q).state = (s.ctl t).ownState :=
    fun hq => hq ▸ hcore.own_state (ht.trans hq)
  change (s1.slot p).state ∈ _
  generalize (s1.slot p).state = st at heff
  cases hw with
  | used line | freeproc line | reap line | setRunnable line | pick line =>
    cases heff
    rw [hcore.state_of_line line (.head _)]
    simp [ProcState.next]
  | wake line | wakeIntr line =>
    cases heff
    rw [hcore.state_of_line line (.head _)]
    exact .head _
  | killRouse sleeps line =>
    cases heff
    rw [sleeps]
    exact .head _
  | sleepState line | yieldState line | zombie line =>
    cases heff
    rw [hown rfl, line]
    simp [Ctl.ownState, ProcState.next]
  | _ => cases heff

/-- The first process is picked. -/
theorem states_follow_life_cycle_first :
    ∃ s s' : Kernel 1 Unit Unit Unit, s.Step ((), .go true) s' ∧ (s.slot 0).state = .RUNNABLE ∧
      (s'.slot 0).state = .RUNNING ∧ s.lock (.proc 0) = some () := by
  let s := ((init : Kernel 1 Unit Unit Unit).step () (.go true)).get rfl
  let s' := (s.step () (.go true)).get rfl
  let s'' := (s'.step () (.go true)).get rfl
  have hrun : Run Step init [((), .go true), ((), .go true)] s' :=
    .cons (t := s) rfl (.cons (t := s') rfl .refl)
  have hstep : s'.Step ((), .go true) s'' := rfl
  exact ⟨s', s'', hstep, rfl, rfl, (states_follow_life_cycle (p := 0) hrun hstep nofun).1⟩

end Kernel

end Xv6.Proc
