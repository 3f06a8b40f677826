import Xv6.Kernel.Proc.Steps

namespace Xv6.Proc.Kernel

open Transition Function

variable {n : Nat} {C M K : Type} [DecidableEq C] [DecidableEq M]
variable {s s' : Kernel n C M K} {c : C} {t : Thread n C} {x : Ctl n M K} {op : Op n M K}

theorem exec_running (h : s.exec c op = some s') :
    s'.running = s.running ∨ ∃ q, op = .swtch q ∧ s'.running = update s.running c q := by
  cases op with
  | swtch q =>
    cases h
    exact .inr ⟨q, rfl, rfl⟩
  | acquire | release =>
    rw [exec] at h
    split_ifs at h
    cases h
    exact .inl rfl
  | _ =>
    cases h
    exact .inl rfl

variable {p : Fin n}

theorem exec_state (h : s.exec c op = some s')
    (hne : (s'.slot p).state ≠ (s.slot p).state) : op.effect = some (p, (s'.slot p).state) := by
  by_cases hq : op.Quiet
  · exact absurd ((exec_quiet hq h).2.2.2.2 p) hne
  cases he : op.effect with
  | some e =>
    obtain ⟨i, st⟩ := e
    obtain ⟨-, -, -, -, hst, hsame⟩ := exec_effect he h
    by_cases hp : p = i
    · rw [hp, hst]
    · rw [hsame p hp] at hne
      exact absurd rfl hne
  | none =>
    refine absurd ?_ hne
    cases op with
    | acquire | release =>
      rw [exec] at h
      split_ifs at h
      cases h
      rfl
    | context | cproc | swtch => cases h; rfl
    | _ => first | exact absurd trivial hq | cases he

section

omit [DecidableEq C] [DecidableEq M]

theorem ownState_ne_unused (x : Ctl n M K) : x.ownState ≠ .UNUSED := by
  unfold Ctl.ownState
  split <;> simp

theorem Core.cproc_inj (h : Core s) {c c' : C} (hc : s.cproc c = some p)
    (hc' : s.cproc c' = some p) : c = c' := by
  have hpicked : ∀ {c}, s.running c = none →
      s.ctl (.cpu c) = .run (.schedSwtch p) ∨ s.ctl (.cpu c) = .run (.schedBack p) →
      (s.ctl (.cpu c)).picked = some p := by
    rintro c - (hline | hline) <;> rw [hline] <;> rfl
  rcases h.cproc c p hc with hr | ⟨hr, hline⟩
  · rcases h.cproc c' p hc' with hr' | ⟨hr', hline'⟩
    · exact h.inj c c' p hr hr'
    · exact absurd hr (h.alone c' c p hr' (hpicked hr' hline'))
  · rcases h.cproc c' p hc' with hr' | ⟨hr', hline'⟩
    · exact absurd hr' (h.alone c c' p hr (hpicked hr hline))
    · exact h.held_inj ((mem_held (cur_of_none hr)).mpr (Ctl.holds_of_picked (hpicked hr hline)))
        ((mem_held (cur_of_none hr')).mpr (Ctl.holds_of_picked (hpicked hr' hline')))

/-- Whose lock is free is running just if a CPU has it. -/
theorem Core.running_iff (h : Core s) (hfree : s.lock (.proc p) = none) :
    (s.slot p).state = .RUNNING ↔ ∃ c, s.cproc c = some p := by
  have hheld : ∀ c, Lock.proc p ∉ s.held c := by
    intro c hc
    rw [← h.locks, hfree] at hc
    cases hc
  constructor
  · intro hrun
    rcases h.run p hrun with ⟨c, hc⟩ | ⟨c, hr, hline⟩
    · exact ⟨c, (h.stack c p hc).1⟩
    · refine absurd ((mem_held (cur_of_none hr)).mpr (Ctl.holds_of_picked ?_)) (hheld c)
      rcases hline with hline | hline <;> rw [hline] <;> rfl
  rintro ⟨c, hc⟩
  rcases h.cproc c p hc with hr | ⟨hr, hline⟩
  · rw [h.own c p hr]
    by_contra hne
    exact hheld c ((mem_held (cur_of_running hr)).mpr (Ctl.holds_of_ownState p hne))
  · refine absurd ((mem_held (cur_of_none hr)).mpr (Ctl.holds_of_picked ?_)) (hheld c)
    rcases hline with hline | hline <;> rw [hline] <;> rfl

end

section

variable (hl : s.Legal t op x) (h : Core s) (hcur : s.cur c = t) (hexec : s.exec c op = some s')
include hl h hcur hexec

/-- A context is entered with the lock of its process, which is running. -/
theorem Legal.entered {c' : C} (hold : s.running c' ≠ some p) (hnew : s'.running c' = some p) :
    (s.slot p).state = .RUNNING ∧ s.lock (.proc p) = some c' := by
  rcases exec_running hexec with hsame | ⟨q, rfl, hq⟩
  · rw [hsame] at hnew
    exact absurd hnew hold
  have hc : c' = c := by
    by_contra hc
    rw [hq, update_of_ne hc] at hnew
    exact hold hnew
  subst hc
  rw [hq, update_self] at hnew
  subst hnew
  cases hl with
  | stay quiet flow holds => cases quiet
  | own effect | other effect => cases effect
  | swtchIn thread line =>
    refine ⟨h.state_of_line line (.head _), (h.locks _ _).mpr ((mem_held hcur).mpr ?_)⟩
    rw [line]
    exact .head _

/-- The slot of a process is only freed when no CPU is in its context. -/
theorem Legal.freed (hold : (s.slot p).state ≠ .UNUSED) (hnew : (s'.slot p).state = .UNUSED)
    (c' : C) : s.running c' ≠ some p := by
  intro hr
  have heff : op.effect = some (p, .UNUSED) := by
    rw [← hnew]
    exact exec_state hexec (by rw [hnew]; exact Ne.symm hold)
  cases hl with
  | stay quiet flow holds =>
    rw [(exec_quiet quiet hexec).2.2.2.2 p] at hnew
    exact hold hnew
  | acquire | release | context | pick | setProc | swtchIn | clearProc | swtchOut => cases heff
  | own effect thread runs leaves lock holds expects used rest =>
    rw [effect] at heff
    exact ownState_ne_unused x (congrArg Prod.snd (Option.some.inj heff))
  | other effect ne lock before used own picked holds expects rest =>
    rw [effect] at heff
    cases heff
    have hown := h.own c' p hr
    have hmem := (mem_held (cur_of_running hr)).mpr
      (Ctl.holds_of_ownState (C := C) p (by rw [← hown]; exact before))
    obtain rfl := h.held_inj hmem ((mem_held hcur).mpr lock)
    rw [← hcur, cur_of_running hr] at own
    exact before (hown.trans own.2)

end

variable [NeZero n] [DecidableEq K]

/-- One CPU for each process: no two CPUs have the same process; a process whose lock is free is
running just if it is the process of exactly one CPU; a context is switched to only while its
process is running and the CPU holds its lock; and a slot is freed only after the CPU has left its
kernel stack. -/
theorem one_cpu_per_process {ls : List (C × Input M K)} (h : Run Step (init : Kernel n C M K) ls s) :
    (∀ c c' p, s.cproc c = some p → s.cproc c' = some p → c = c') ∧
      (∀ p, s.lock (.proc p) = none →
        ((s.slot p).state = .RUNNING ↔ ∃! c, s.cproc c = some p)) ∧
      ∀ l s', s.Step l s' →
        (∀ c p, s.running c ≠ some p → s'.running c = some p →
          (s.slot p).state = .RUNNING ∧ s.lock (.proc p) = some c) ∧
        ∀ p, (s.slot p).state = .ZOMBIE → (s'.slot p).state = .UNUSED →
          ∀ c, s.running c ≠ some p := by
  have hcore := core_run h
  refine ⟨fun c c' p => hcore.cproc_inj, ?_, ?_⟩
  · intro p hfree
    rw [hcore.running_iff hfree]
    constructor
    · rintro ⟨c, hc⟩
      exact ⟨c, hc, fun c' hc' => hcore.cproc_inj hc' hc⟩
    · rintro ⟨c, hc, -⟩
      exact ⟨c, hc⟩
  intro l s' hstep
  obtain ⟨op, x, s₁, hnext, hexec, rfl⟩ := hstep.parts
  have hl := next_legal hcore hnext
  refine ⟨fun c p hold hnew => hl.entered hcore rfl hexec hold hnew, ?_⟩
  intro p hold hnew
  exact hl.freed hcore rfl hexec (by rw [hold]; simp) hnew

/-- The first process is picked, switched to and gives back its lock. -/
theorem one_cpu_per_process_first :
    ∃ s : Kernel 1 Unit Unit Unit, (s.slot 0).state = .RUNNING ∧ ∃! c, s.cproc c = some 0 := by
  have hex : (Transition.exec (guarded (fun (s : Kernel 1 Unit Unit Unit) (l : Unit × Input Unit Unit) =>
      s.step l.1 l.2) fun _ _ => True) init (List.replicate 6 ((), .go true))).map
        (fun s => (s.lock (.proc 0), (s.slot 0).state)) = some (none, .RUNNING) := by
    decide +kernel
  obtain ⟨s, hs, hval⟩ := Option.map_eq_some_iff.mp hex
  have hrun : Run Step init _ s := (run_of_exec_guarded hs).mono fun _ _ _ hstep => hstep.1
  have hstate : (s.slot 0).state = .RUNNING := congrArg Prod.snd hval
  exact ⟨s, hstate, ((one_cpu_per_process hrun).2.1 0 (congrArg Prod.fst hval)).mp hstate⟩

end Xv6.Proc.Kernel
