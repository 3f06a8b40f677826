import Xv6.Kernel.Proc.Core

namespace Xv6.Proc

open Transition Function Option List

variable {n : Nat} {C M K : Type}

/-- The effects that leave locks, states and contexts as they are. -/
def Op.Quiet : Op n M K → Prop
  | .skip => True
  | .takePid => True
  | .pid _ _ => True
  | .trapframe _ => True
  | .pagetable _ => True
  | .files _ _ => True
  | .parent _ _ => True
  | .chan _ _ => True
  | .killed _ => True
  | .xstate _ _ => True
  | _ => False

/-- The slot whose state is changed, and its new state. -/
def Op.effect : Op n M K → Option (Fin n × ProcState)
  | .used i _ => some (i, .USED)
  | .freeproc i => some (i, .UNUSED)
  | .reap i _ => some (i, .UNUSED)
  | .state i st => some (i, st)
  | .zombie i _ => some (i, .ZOMBIE)
  | _ => none

namespace Kernel

/-- The thread `t` goes on to `x` with what it relies on. -/
structure Flow (s : Kernel n C M K) (t : Thread n C) (x : Ctl n M K) : Prop where
  own : ∀ p, t = .proc p → x.ownState = (s.ctl t).ownState
  expects : ∀ e ∈ x.expects, e ∈ (s.ctl t).expects ∨ (s.slot e.1).state = e.2 ∧ e.2 ≠ .USED
  rest : x.Rest t
  picked : x.picked = none ∧ (s.ctl t).picked = none

/-- What the steps of a thread are like. -/
inductive Legal (s : Kernel n C M K) (t : Thread n C) : Op n M K → Ctl n M K → Prop
  | stay {op : Op n M K} {x : Ctl n M K} (quiet : op.Quiet) (flow : s.Flow t x)
      (holds : ∀ ℓ, ℓ ∈ x.holds t ↔ ℓ ∈ (s.ctl t).holds t) : Legal s t op x
  | acquire {ℓ : Lock n M} {x : Ctl n M K} (flow : s.Flow t x)
      (holds : ∀ ℓ', ℓ' ∈ x.holds t ↔ ℓ' = ℓ ∨ ℓ' ∈ (s.ctl t).holds t) : Legal s t (.acquire ℓ) x
  | release {ℓ : Lock n M} {x : Ctl n M K} (flow : s.Flow t x)
      (holds : ∀ ℓ', ℓ' ∈ x.holds t ↔ ℓ' ≠ ℓ ∧ ℓ' ∈ (s.ctl t).holds t) : Legal s t (.release ℓ) x
  | context {i : Fin n} {x : Ctl n M K} (flow : s.Flow t x)
      (holds : ∀ ℓ, ℓ ∈ x.holds t ↔ ℓ ∈ (s.ctl t).holds t)
      (used : (i, .USED) ∈ (s.ctl t).expects) : Legal s t (.context i) x
  | own {op : Op n M K} {p : Fin n} {x : Ctl n M K} (effect : op.effect = some (p, x.ownState))
      (thread : t = .proc p) (runs : (s.ctl t).ownState = .RUNNING) (leaves : x.ownState ≠ .RUNNING)
      (lock : .proc p ∈ (s.ctl t).holds t) (holds : ∀ ℓ, ℓ ∈ x.holds t ↔ ℓ ∈ (s.ctl t).holds t)
      (expects : x.expects = (s.ctl t).expects) (used : ∀ e ∈ x.expects, e.2 = .USED)
      (rest : x.Rest t) : Legal s t op x
  | other {op : Op n M K} {i : Fin n} {st : ProcState} {x : Ctl n M K}
      (effect : op.effect = some (i, st)) (ne : st ≠ .RUNNING)
      (lock : .proc i ∈ (s.ctl t).holds t) (before : (s.slot i).state ≠ .RUNNING)
      (used : (s.slot i).state = .USED → (i, .USED) ∈ (s.ctl t).expects)
      (own : x.ownState = .RUNNING ∧ (s.ctl t).ownState = .RUNNING)
      (picked : x.picked = none ∧ (s.ctl t).picked = none)
      (holds : ∀ ℓ, ℓ ∈ x.holds t ↔ ℓ ∈ (s.ctl t).holds t)
      (expects : ∀ e ∈ x.expects, e ∈ (s.ctl t).expects ∧ e.2 ≠ (s.slot i).state ∨
        e = (i, st) ∧ (s.slot i).state ≠ .USED) (rest : x.Rest t) : Legal s t op x
  | pick {c : C} {i : Fin n} (thread : t = .cpu c) (line : s.ctl t = .run (.schedPick i)) :
      Legal s t (.state i .RUNNING) (.run (.schedProc i))
  | setProc {c : C} {i : Fin n} (thread : t = .cpu c) (line : s.ctl t = .run (.schedProc i)) :
      Legal s t (.cproc (some i)) (.run (.schedSwtch i))
  | swtchIn {c : C} {i : Fin n} (thread : t = .cpu c) (line : s.ctl t = .run (.schedSwtch i)) :
      Legal s t (.swtch (some i)) (.run (.schedBack i))
  | clearProc {c : C} {i : Fin n} (thread : t = .cpu c) (line : s.ctl t = .run (.schedBack i)) :
      Legal s t (.cproc none) (.run (.schedUnlock i))
  | swtchOut {p : Fin n} {x : Ctl n M K} (thread : t = .proc p)
      (leaves : (s.ctl t).ownState ≠ .RUNNING) (holds : (s.ctl t).holds t = [.proc p])
      (parked : x.Parked) (expects : x.expects = (s.ctl t).expects) (rest : x.Rest t) :
      Legal s t (.swtch none) x

variable [DecidableEq C] [DecidableEq M]
variable {s s' : Kernel n C M K} {c : C} {t : Thread n C} {x : Ctl n M K} {op : Op n M K}

theorem exec_quiet (hop : op.Quiet) (h : s.exec c op = some s') :
    s'.running = s.running ∧ s'.cproc = s.cproc ∧ s'.ctl = s.ctl ∧ s'.lock = s.lock ∧
      ∀ i, (s'.slot i).state = (s.slot i).state := by
  have hwrite : ∀ {i : Fin n} {sl : Slot n M K}, sl.state = (s.slot i).state →
      ∀ j, ((s.write i sl).slot j).state = (s.slot j).state := by
    intro i sl hsl j
    by_cases hj : j = i
    · rw [hj, write_self, hsl]
    · rw [write_ne s hj]
  cases op with
  | skip | takePid | files | parent => cases h; exact ⟨rfl, rfl, rfl, rfl, fun _ => rfl⟩
  | pid | trapframe | pagetable | chan | killed | xstate =>
    cases h; exact ⟨rfl, rfl, rfl, rfl, hwrite rfl⟩
  | _ => cases hop

variable {i : Fin n} {st : ProcState}

theorem exec_effect (hop : op.effect = some (i, st)) (h : s.exec c op = some s') :
    s'.running = s.running ∧ s'.cproc = s.cproc ∧ s'.ctl = s.ctl ∧ s'.lock = s.lock ∧
      (s'.slot i).state = st ∧ ∀ j, j ≠ i → s'.slot j = s.slot j := by
  have hwrite : ∀ {sl : Slot n M K}, sl.state = st →
      ((s.write i sl).slot i).state = st ∧ ∀ j, j ≠ i → (s.write i sl).slot j = s.slot j :=
    fun hsl => ⟨by rw [write_self, hsl], fun j hj => write_ne s hj _⟩
  cases op with
  | used | freeproc | reap | state | zombie =>
    cases hop; cases h; exact ⟨rfl, rfl, rfl, rfl, hwrite rfl⟩
  | _ => cases hop

omit [DecidableEq C] [DecidableEq M] in
theorem Core.state_of_line (h : Core s) (hx : s.ctl t = x)
    (he : (i, st) ∈ x.expects) : (s.slot i).state = st :=
  h.expects t (i, st) (hx ▸ he)

variable {ℓ : Lock n M}

omit [DecidableEq M] in
theorem mem_held_setCtl (hcur : s'.cur c = t) : ℓ ∈ (s'.setCtl t x).held c ↔ ℓ ∈ x.holds t := by
  rw [mem_held (s := s'.setCtl t x) hcur, setCtl_self]

section

omit [DecidableEq C] [DecidableEq M]

theorem not_picking (h : (s.ctl (.cpu c)).picked = none) (i : Fin n) : ¬ s.Picking c i := by
  rintro ⟨-, hline | hline⟩ <;> rw [hline] at h <;> cases h

theorem Core.cproc_none (h : Core s) (hcur : s.cur c = .cpu c)
    (hpick : (s.ctl (.cpu c)).picked = none) (p : Fin n) : s.cproc c ≠ some p := by
  intro hp
  rcases h.cproc c p hp with hr | ⟨-, hline | hline⟩
  · rw [(cur_eq_cpu.mp hcur).1] at hr
    cases hr
  all_goals
    rw [hline] at hpick
    cases hpick

theorem ne_schedSwtch (h : x.picked = none) (p : Fin n) : x ≠ .run (.schedSwtch p) := by
  rintro rfl
  cases h

end

omit [DecidableEq M] in
theorem Core.flow (h : Core s) (hcur : s.cur c = t) (hflow : s.Flow t x)
    (hrunning : s'.running = s.running) (hcproc : s'.cproc = s.cproc) (hctl : s'.ctl = s.ctl)
    (hstate : ∀ i, (s'.slot i).state = (s.slot i).state)
    (hothers : ∀ ℓ c', c' ≠ c → (s'.lock ℓ = some c' ↔ s.lock ℓ = some c'))
    (hlock : ∀ ℓ, s'.lock ℓ = some c ↔ ℓ ∈ x.holds t) : Core (s'.setCtl t x) := by
  refine h.advance hcur hrunning hcproc hctl hothers hlock ?_ ?_ ?_ ?_ hflow.rest ?_ ?_ ?_ ?_ ?_
  · exact fun i hi => absurd (hstate i) hi
  · intro p hp
    subst hp
    rw [hstate, hflow.own p rfl]
    exact h.own c p (cur_eq_proc.mp hcur)
  · intro e he
    rw [hstate]
    rcases hflow.expects e he with hold | hnew
    · exact h.expects t e hold
    · exact hnew.1
  · intro i hi
    rcases hflow.expects _ hi with hold | hnew
    · exact .inl hold
    · exact absurd rfl hnew.2
  · exact fun i hi hne => absurd ((hstate i).symm.trans hi) hne
  · intro _ i hi
    rw [hflow.picked.1] at hi
    cases hi
  · intro ht i
    subst ht
    exact not_picking hflow.picked.2 i
  · intro ht p hp
    subst ht
    exact absurd hp (h.cproc_none hcur hflow.picked.2 p)
  · exact fun _ => ne_schedSwtch hflow.picked.1

omit [DecidableEq C] in
theorem update_lock_others {v : Option C} {c' : C} (hold : s.lock ℓ ≠ some c') (hnew : v ≠ some c')
    (ℓ' : Lock n M) : update s.lock ℓ v ℓ' = some c' ↔ s.lock ℓ' = some c' := by
  by_cases hℓ : ℓ' = ℓ
  · simp [hℓ, hold, hnew]
  · rw [update_of_ne hℓ]

theorem Legal.core (hl : s.Legal t op x) (h : Core s) (hcur : s.cur c = t)
    (hexec : s.exec c op = some s') : Core (s'.setCtl t x) := by
  have hheld : ∀ ℓ, s.lock ℓ = some c ↔ ℓ ∈ (s.ctl t).holds t :=
    fun ℓ => (h.locks ℓ c).trans (mem_held hcur)
  cases hl with
  | stay quiet flow holds =>
    obtain ⟨hrunning, hcproc, hctl, hlock, hstate⟩ := exec_quiet quiet hexec
    refine h.flow hcur flow hrunning hcproc hctl hstate (fun ℓ c' _ => by rw [hlock]) fun ℓ => ?_
    rw [hlock, hheld, holds]
  | @acquire ℓ x flow holds =>
    rw [exec] at hexec
    split_ifs at hexec with hfree
    cases hexec
    refine h.flow hcur flow rfl rfl rfl (fun _ => rfl) (fun ℓ' c' hc => ?_) fun ℓ' => ?_
    · exact update_lock_others (by simp [hfree]) (by simp [Ne.symm hc]) ℓ'
    change update s.lock ℓ (some c) ℓ' = some c ↔ _
    rw [holds]
    by_cases hℓ : ℓ' = ℓ
    · simp [hℓ]
    · rw [update_of_ne hℓ, hheld]
      simp [hℓ]
  | @release ℓ x flow holds =>
    rw [exec] at hexec
    split_ifs at hexec with hmine
    cases hexec
    refine h.flow hcur flow rfl rfl rfl (fun _ => rfl) (fun ℓ' c' hc => ?_) fun ℓ' => ?_
    · exact update_lock_others (by simp [hmine, Ne.symm hc]) (by simp) ℓ'
    change update s.lock ℓ none ℓ' = some c ↔ _
    rw [holds]
    by_cases hℓ : ℓ' = ℓ
    · simp [hℓ]
    · rw [update_of_ne hℓ, hheld]
      simp [hℓ]
  | @context i x flow holds used =>
    cases hexec
    have hstate : (s.slot i).state = .USED := h.expects t _ used
    have hi : ∀ c', s.running c' ≠ some i := by
      intro c' hc'
      have hown := (h.own c' i hc').symm.trans hstate
      revert hown
      unfold Ctl.ownState
      split <;> simp
    have hti : t ≠ .proc i := by
      intro ht
      exact hi c (cur_eq_proc.mp (hcur.trans ht))
    have hsame : (s.setCtl (.proc i) (.run .forkret)).ctl t = s.ctl t := setCtl_ne s hti _
    have hflow : (s.setCtl (.proc i) (.run .forkret)).Flow t x :=
      ⟨by rw [hsame]; exact flow.own, by rw [hsame]; exact flow.expects, flow.rest,
        by rw [hsame]; exact flow.picked⟩
    refine (h.context hi).flow (c := c) ?_ hflow rfl rfl rfl
      (fun _ => rfl) (fun _ _ _ => Iff.rfl) fun ℓ => ?_
    · exact hcur
    · rw [holds]
      exact hheld ℓ
  | @own _ p x effect thread runs leaves lock holds expects used rest =>
    subst thread
    obtain ⟨hrunning, hcproc, hctl, hlock, hp, hsame⟩ := exec_effect effect hexec
    have hr := cur_eq_proc.mp hcur
    have hstate : (s.slot p).state = .RUNNING := (h.own c p hr).trans runs
    have hne : ∀ e ∈ (s.ctl (.proc p)).expects, e.1 ≠ p := by
      intro e he heq
      have hst := h.expects _ e he
      rw [heq, hstate, used e (expects ▸ he)] at hst
      cases hst
    refine h.advance hcur hrunning hcproc hctl (fun ℓ c' _ => by rw [hlock])
      (fun ℓ => by rw [hlock, hheld, holds]) ?_ ?_ ?_ ?_ rest ?_ ?_ ?_ ?_ ?_
    · intro i hi
      have hip : i = p := by
        by_contra hip
        exact hi (by rw [hsame i hip])
      rw [hip, hstate]
      exact ⟨lock, fun hused => (by cases hused), fun _ => rfl⟩
    · intro q hq
      cases hq
      exact hp
    · intro e he
      rw [expects] at he
      rw [hsame _ (hne e he)]
      exact h.expects _ e he
    · intro i hi
      exact .inl (expects ▸ hi)
    · intro i hi hne
      by_cases hip : i = p
      · rw [hip, hp] at hi
        exact absurd hi leaves
      · rw [hsame i hip] at hi
        exact absurd hi hne
    all_goals exact fun ht => by cases ht
  | @other _ i st x effect ne lock before used own picked holds expects rest =>
    obtain ⟨hrunning, hcproc, hctl, hlock, hi, hsame⟩ := exec_effect effect hexec
    refine h.advance hcur hrunning hcproc hctl (fun ℓ c' _ => by rw [hlock])
      (fun ℓ => by rw [hlock, hheld, holds]) ?_ ?_ ?_ ?_ rest ?_ ?_ ?_ ?_ ?_
    · intro j hj
      have hji : j = i := by
        by_contra hji
        exact hj (by rw [hsame j hji])
      subst hji
      exact ⟨lock, used, fun hrun => absurd hrun before⟩
    · intro p hp
      subst hp
      have hown := h.own c p (cur_eq_proc.mp hcur)
      have hpi : p ≠ i := by
        rintro rfl
        exact before (hown.trans own.2)
      rw [hsame p hpi, hown, own.1, own.2]
    · intro e he
      rcases expects e he with ⟨hold, hne⟩ | ⟨rfl, -⟩
      · have hst := h.expects t e hold
        have hei : e.1 ≠ i := by
          intro heq
          rw [heq] at hst
          exact hne hst.symm
        rw [hsame _ hei, hst]
      · exact hi
    · intro j hj
      rcases expects _ hj with ⟨hold, -⟩ | ⟨heq, hne⟩
      · exact .inl hold
      · cases heq
        exact .inr hne
    · intro j hj hne
      by_cases hji : j = i
      · rw [hji, hi] at hj
        exact absurd hj ne
      · rw [hsame j hji] at hj
        exact absurd hj hne
    · intro _ j hj
      rw [picked.1] at hj
      cases hj
    · intro ht j
      subst ht
      exact not_picking picked.2 j
    · intro ht p hp
      subst ht
      exact absurd hp (h.cproc_none hcur picked.2 p)
    · exact fun _ => ne_schedSwtch picked.1
  | @pick c' i thread line =>
    obtain ⟨hc, rfl⟩ := cur_eq_cpu.mp (hcur.trans thread)
    subst thread
    cases hexec
    have hstate : (s.slot i).state = .RUNNABLE := h.state_of_line line (.head _)
    have hmem : Lock.proc i ∈ (s.ctl (.cpu c)).holds (.cpu c : Thread n C) := by
      simp [line, Ctl.holds, Pc.holds]
    have hpicked : (s.ctl (.cpu c)).picked = none := by
      rw [line]
      rfl
    refine h.advance hcur rfl rfl rfl (fun ℓ c' _ => Iff.rfl) (fun ℓ => ?_) ?_ ?_ ?_ ?_ trivial ?_ ?_
      ?_ ?_ ?_
    · exact (hheld ℓ).trans (by simp [line, Ctl.holds, Pc.holds])
    · intro j hj
      have hji : j = i := by
        by_contra hji
        exact hj (by rw [write_ne s hji])
      rw [hji, hstate]
      exact ⟨hmem, fun hused => (by cases hused), fun hrun => (by cases hrun)⟩
    · exact fun p hp => by cases hp
    · intro e he
      simp only [Ctl.expects, Pc.expects, mem_singleton] at he
      rw [he, write_self]
    · intro j hj
      simp [Ctl.expects, Pc.expects] at hj
    · intro j hj hne
      refine ⟨rfl, ?_⟩
      by_cases hji : j = i
      · rw [hji]
      · rw [write_ne s hji] at hj
        exact absurd hj hne
    · intro _ j hj
      obtain rfl : i = j := some.inj hj
      exact .inr ⟨hstate, hmem⟩
    · exact fun _ => not_picking hpicked
    · exact fun _ p hp => absurd hp (h.cproc_none hcur hpicked p)
    · exact fun _ p => by simp
  | @setProc c' i thread line =>
    obtain ⟨hc, rfl⟩ := cur_eq_cpu.mp (hcur.trans thread)
    subst thread
    cases hexec
    have hset : update s.cproc c (some i) c = some i := update_self ..
    refine h.sched_step hc line rfl rfl rfl (fun c' hc' => update_of_ne hc' ..)
      (fun _ _ => rfl) ?_ ?_ ?_ ?_ ?_ ?_ ?_ ?_ trivial
    · intro ℓ
      rw [mem_held_setCtl (by exact hcur)]
      rfl
    · exact fun p hp => absurd (hc.symm.trans hp) (by simp)
    · intro p hp
      obtain rfl : i = p := some.inj (hset.symm.trans hp)
      exact .inr ⟨hc, .inl rfl⟩
    · intro p hp
      cases hp
      exact hset
    · exact fun _ p hp => hp
    · intro p hp
      rcases hp with hp | hp
      · cases hp
        exact .inr ⟨hc, rfl⟩
      · cases hp
    · exact fun e he => he
    · intro j hj
      simp [Ctl.expects, Pc.expects] at hj
  | @swtchIn c' i thread line =>
    obtain ⟨hc, rfl⟩ := cur_eq_cpu.mp (hcur.trans thread)
    subst thread
    cases hexec
    have hr : update s.running c (some i) c = some i := update_self ..
    have hparked := h.parked i fun c' => h.alone c c' i hc (by rw [line]; rfl)
    refine h.sched_step hc line rfl rfl rfl (fun _ _ => rfl)
      (fun c' hc' => update_of_ne hc' ..) ?_ ?_ ?_ ?_ ?_ ?_ ?_ ?_ trivial
    · intro ℓ
      refine Iff.trans ?_ (mem_held (cur_of_running hr)).symm
      rw [setCtl_ne _ (by simp), hparked.holds]
      rfl
    · intro p hp
      obtain rfl : i = p := some.inj (hr.symm.trans hp)
      exact ⟨h.set c i hc line, rfl, rfl, h.state_of_line line (.head _)⟩
    · intro p hp
      obtain rfl : i = p := some.inj ((h.set c i hc line).symm.trans hp)
      exact .inl hr
    · exact fun p hp => by cases hp
    · exact fun hnone => absurd (hr.symm.trans hnone) (by simp)
    · intro p hp
      rcases hp with hp | hp
      · cases hp
      · cases hp
        exact .inl hr
    · exact fun e he => by cases he
    · intro j hj
      simp [Ctl.expects, Pc.expects] at hj
  | @clearProc c' i thread line =>
    obtain ⟨hc, rfl⟩ := cur_eq_cpu.mp (hcur.trans thread)
    subst thread
    cases hexec
    have hnone : update s.cproc c none c = none := update_self ..
    refine h.sched_step hc line rfl rfl rfl (fun c' hc' => update_of_ne hc' ..)
      (fun _ _ => rfl) ?_ ?_ ?_ ?_ ?_ ?_ ?_ ?_ trivial
    · intro ℓ
      rw [mem_held_setCtl (by exact hcur)]
      rfl
    · exact fun p hp => absurd (hc.symm.trans hp) (by simp)
    · exact fun p hp => absurd (hnone.symm.trans hp) (by simp)
    · exact fun p hp => by cases hp
    · exact fun _ p hp => by cases hp
    · intro p hp
      rcases hp with hp | hp <;> cases hp
    · exact fun e he => by cases he
    · intro j hj
      cases hj
  | @swtchOut p x thread leaves holds parked expects rest =>
    subst thread
    cases hexec
    exact h.swtch_out (cur_eq_proc.mp hcur) rfl rfl rfl rfl rfl holds leaves parked expects rest

variable {p : Fin n}

section Rows

variable {y : Ctl n M K} {ℓ : Lock n M}

/-- From `y` to `x`, with what the thread relies on. -/
structure Goes (s : Kernel n C M K) (t : Thread n C) (y x : Ctl n M K) : Prop where
  own : ∀ p, t = .proc p → x.ownState = y.ownState
  expects : ∀ e ∈ x.expects, e ∈ y.expects ∨ (s.slot e.1).state = e.2 ∧ e.2 ≠ .USED
  rest : x.Rest t
  picked : x.picked = none ∧ y.picked = none

section

omit [DecidableEq C] [DecidableEq M]

section

variable (hx : s.ctl t = y) (h : s.Goes t y x)
include hx h

theorem Goes.flow : s.Flow t x := by
  subst hx
  exact ⟨h.own, h.expects, h.rest, h.picked⟩

theorem Goes.stay (hop : op.Quiet) (holds : ∀ ℓ, ℓ ∈ x.holds t ↔ ℓ ∈ y.holds t) :
    s.Legal t op x := by
  refine .stay hop (Goes.flow hx h) ?_
  rw [hx]
  exact holds

theorem Goes.acquire (holds : ∀ ℓ', ℓ' ∈ x.holds t ↔ ℓ' = ℓ ∨ ℓ' ∈ y.holds t) :
    s.Legal t (.acquire ℓ) x := by
  refine .acquire (Goes.flow hx h) ?_
  rw [hx]
  exact holds

theorem Goes.release (holds : ∀ ℓ', ℓ' ∈ x.holds t ↔ ℓ' ≠ ℓ ∧ ℓ' ∈ y.holds t) :
    s.Legal t (.release ℓ) x := by
  refine .release (Goes.flow hx h) ?_
  rw [hx]
  exact holds

end

theorem Legal.write {before : ProcState} (hx : s.ctl t = y)
    (effect : op.effect = some (i, st)) (hst : (s.slot i).state = before)
    (hrun : before ≠ .RUNNING ∧ st ≠ .RUNNING) (hused : before = .USED → (i, .USED) ∈ y.expects)
    (own : x.ownState = .RUNNING ∧ y.ownState = .RUNNING)
    (picked : x.picked = none ∧ y.picked = none) (lock : .proc i ∈ y.holds t)
    (holds : ∀ ℓ, ℓ ∈ x.holds t ↔ ℓ ∈ y.holds t)
    (expects : ∀ e ∈ x.expects, e ∈ y.expects ∧ e.2 ≠ before ∨ e = (i, st) ∧ before ≠ .USED)
    (rest : x.Rest t) : s.Legal t op x := by
  subst hst hx
  exact .other effect hrun.2 lock hrun.1 hused own picked holds expects rest

theorem Legal.leave (hx : s.ctl (.proc p) = y) (effect : op.effect = some (p, x.ownState))
    (runs : y.ownState = .RUNNING) (leaves : x.ownState ≠ .RUNNING)
    (lock : .proc p ∈ y.holds (.proc p : Thread n C))
    (holds : x.holds (.proc p : Thread n C) = y.holds (.proc p : Thread n C))
    (expects : x.expects = y.expects) (used : ∀ e ∈ y.expects, e.2 = .USED)
    (rest : x.Rest (.proc p : Thread n C)) : s.Legal (.proc p) op x := by
  subst hx
  exact .own effect rfl runs leaves lock (fun ℓ => by rw [holds]) expects (expects ▸ used) rest

theorem Legal.sched (hx : s.ctl (.proc p) = y) (leaves : y.ownState ≠ .RUNNING)
    (holds : y.holds (.proc p : Thread n C) = [.proc p]) (parked : x.Parked)
    (expects : x.expects = y.expects) (rest : x.Rest (.proc p : Thread n C)) :
    s.Legal (.proc p) (.swtch none) x := by
  subst hx
  exact .swtchOut rfl leaves holds parked expects rest

end

end Rows

section Next

variable {p : Fin n}

section

omit [DecidableEq C] [DecidableEq M]

theorem sleepNext_legal {cont : SleepCont M K} {pc : SleepPc}
    (hx : s.ctl (.proc p) = .sleep pc cont) (hnext : sleepNext p cont pc = (op, x)) :
    s.Legal (.proc p) op x := by
  have hlock : (cont.lock : Lock n M) ≠ .proc p := by cases cont <;> simp [SleepCont.lock]
  cases pc with
  | lockp =>
    cases hnext
    exact Goes.acquire hx ⟨fun _ _ => rfl, by simp [Ctl.expects], trivial, rfl, rfl⟩
      (by grind [Ctl.holds, SleepPc.holds, Thread.own])
  | unlock | unlockp =>
    cases hnext
    exact Goes.release hx ⟨fun _ _ => rfl, by simp [Ctl.expects], trivial, rfl, rfl⟩
      (by grind [Ctl.holds, SleepPc.holds, Thread.own])
  | chan | resumed =>
    cases hnext
    exact Goes.stay hx ⟨fun _ _ => rfl, by simp [Ctl.expects], trivial, rfl, rfl⟩ trivial fun _ => Iff.rfl
  | state =>
    cases hnext
    exact .leave hx rfl rfl (by simp [Ctl.ownState]) (.head _) rfl rfl (by simp [Ctl.expects]) trivial
  | sched =>
    cases hnext
    exact .sched hx (by simp [Ctl.ownState]) rfl (.sleep cont) rfl trivial
  | relock =>
    cases hnext
    cases cont <;>
      exact Goes.acquire hx ⟨fun _ _ => rfl, by simp [SleepCont.pc, Ctl.expects, Pc.expects], trivial, rfl, rfl⟩
        (by simp [Ctl.holds, SleepCont.pc, SleepCont.lock, Pc.holds, SleepPc.holds])

theorem yieldNext_legal {back : Pc n M} {pc : YieldPc} (hx : s.ctl (.proc p) = .yield pc back)
    (hrest : back.holds (.proc p : Thread n C) = []) (hnext : yieldNext p back pc = (op, x)) :
    s.Legal (.proc p) op x := by
  have hused : ∀ e ∈ back.expects, e.2 = .USED := by
    intro e he
    rcases Pc.expects_holds (.proc p : Thread n C) he with hmem | hused
    · rw [hrest] at hmem
      cases hmem
    · exact hused
  cases pc with
  | lockp =>
    cases hnext
    exact Goes.acquire hx ⟨fun _ _ => rfl, fun e he => .inl he, hrest, rfl, rfl⟩
      (by simp [Ctl.holds, YieldPc.holds, Thread.own])
  | state =>
    cases hnext
    exact .leave hx rfl rfl (by simp [Ctl.ownState]) (.head _) rfl rfl hused hrest
  | sched =>
    cases hnext
    exact .sched hx (by simp [Ctl.ownState]) rfl (.yield back) rfl hrest
  | resumed =>
    cases hnext
    refine Goes.release hx ⟨?_, fun e he => .inl he, trivial, ?_, rfl⟩ ?_
    · exact fun _ _ => Ctl.ownState_of_holds hrest
    · exact Ctl.picked_of_holds hrest
    · simp [Ctl.holds, YieldPc.holds, Thread.own, hrest]

end

/-- The frame in which a thread runs `wakeup`: the lock of the caller, and where it goes on. -/
structure Frame (t : Thread n C) (ℓ : Lock n M) (E : List (Fin n × ProcState))
    (f : Option (Wake n M K) → Ctl n M K) : Prop where
  lock : ∀ i, ℓ ≠ .proc i
  holds : ∀ w, (f (some w)).holds t = ℓ :: w.pc.holds
  back : (f none).holds t = [ℓ]
  expects : ∀ w, (f (some w)).expects = w.pc.expects ++ E
  expects_back : (f none).expects = E
  used : ∀ e ∈ E, e.2 = .USED
  own : ∀ w, (f w).ownState = .RUNNING
  picked : ∀ w, (f w).picked = none
  rest : ∀ w, (f w).Rest t

omit [DecidableEq C] in
theorem wakeNext_legal [DecidableEq K] (h : Core s) {E : List (Fin n × ProcState)}
    {f : Option (Wake n M K) → Ctl n M K} (hf : Frame t ℓ E f) {w : Wake n M K}
    {w' : Option (Wake n M K)} {self : Option (Fin n)} (hx : s.ctl t = f (some w))
    (hnext : s.wakeNext self w = (op, w')) : s.Legal t op (f w') := by
  have hgoes : ∀ {w'' : Option (Wake n M K)},
      (∀ e ∈ (f w'').expects, e ∈ (f (some w)).expects ∨ (s.slot e.1).state = e.2 ∧ e.2 ≠ .USED) →
      s.Goes t (f (some w)) (f w'') := fun he =>
    ⟨fun _ _ => (hf.own _).trans (hf.own _).symm, he, hf.rest _, hf.picked _, hf.picked _⟩
  obtain ⟨ch, pc⟩ := w
  cases pc with
  | next i =>
    simp only [wakeNext] at hnext
    split_ifs at hnext with hi hself
    · cases hnext
      refine Goes.stay hx (hgoes fun e he => .inl ?_) trivial fun ℓ => ?_
      · rwa [hf.expects] at he ⊢
      · rw [hf.holds, hf.holds]
        rfl
    · cases hnext
      refine Goes.acquire hx (hgoes fun e he => .inl ?_) fun ℓ => ?_
      · rwa [hf.expects] at he ⊢
      · rw [hf.holds, hf.holds]
        simp [WakePc.holds, or_comm]
    cases hnext
    refine Goes.stay hx (hgoes fun e he => .inl ?_) trivial fun ℓ => ?_
    · rw [hf.expects_back] at he
      rw [hf.expects]
      exact he
    · rw [hf.holds, hf.back]
      rfl
  | test i =>
    simp only [wakeNext] at hnext
    split_ifs at hnext with htest
    · cases hnext
      refine Goes.stay hx (hgoes fun e he => ?_) trivial fun ℓ => ?_
      · rw [hf.expects] at he ⊢
        rcases List.mem_cons.mp he with rfl | he
        · exact .inr ⟨htest.1, by simp⟩
        · exact .inl he
      · rw [hf.holds, hf.holds]
        rfl
    · cases hnext
      refine Goes.stay hx (hgoes fun e he => .inl ?_) trivial fun ℓ => ?_
      · rwa [hf.expects] at he ⊢
      · rw [hf.holds, hf.holds]
        rfl
  | set i =>
    cases hnext
    have hstate : (s.slot i).state = .SLEEPING := by
      apply h.state_of_line hx
      rw [hf.expects]
      exact .head _
    refine .write hx rfl hstate ⟨by simp, by simp⟩ (fun h => by cases h)
      ⟨hf.own _, hf.own _⟩ ⟨hf.picked _, hf.picked _⟩ ?_ (fun ℓ => ?_) ?_ (hf.rest _)
    · rw [hf.holds]
      exact .tail _ (.head _)
    · rw [hf.holds, hf.holds]
      rfl
    intro e he
    rw [hf.expects] at he
    refine .inl ⟨?_, ?_⟩
    · rw [hf.expects]
      exact .tail _ he
    · rw [hf.used e he]
      simp
  | unlock i =>
    cases hnext
    refine Goes.release hx (hgoes fun e he => .inl ?_) fun ℓ' => ?_
    · rwa [hf.expects] at he ⊢
    · rw [hf.holds, hf.holds]
      have := hf.lock i
      simp only [WakePc.holds, mem_cons, not_mem_nil, or_false]
      grind

end Next

variable [NeZero n] {inp : Input M K} {pc : Pc n M}

section

omit [DecidableEq C] [DecidableEq M]

theorem procNext_legal (h : Core s) {ok : Bool} (hx : s.ctl (.proc p) = .run pc)
    (hnext : s.procNext p ok pc = some (op, x)) : s.Legal (.proc p) op x := by
  have hexp : ∀ {i st}, (i, st) ∈ pc.expects → (s.slot i).state = st := h.state_of_line hx
  unfold procNext at hnext
  split at hnext
  all_goals try split_ifs at hnext
  all_goals cases hnext
  -- most lines only take or release a lock, or write what no state depends on
  all_goals try
    exact Goes.stay hx ⟨fun _ _ => rfl, by simp_all [Ctl.expects, Pc.expects, WakePc.expects], trivial, rfl, rfl⟩
      trivial (by simp [Ctl.holds, Pc.holds, WakePc.holds, WakeCont.lock])
  all_goals try
    exact Goes.acquire hx ⟨fun _ _ => rfl, by simp [Ctl.expects, Pc.expects], trivial, rfl, rfl⟩
      (by grind [Ctl.holds, Pc.holds, Thread.own])
  all_goals try
    exact Goes.release hx ⟨fun _ _ => rfl, by simp [Ctl.expects, Pc.expects], trivial, rfl, rfl⟩
      (by grind [Ctl.holds, Pc.holds, Thread.own, SleepPc.holds, SleepCont.lock])
  all_goals try
    exact .write hx rfl (hexp (.head _)) ⟨by simp, by simp⟩ (by simp [Ctl.expects, Pc.expects])
      ⟨rfl, rfl⟩ ⟨rfl, rfl⟩ (.head _) (fun _ => Iff.rfl) (by simp [Ctl.expects, Pc.expects]) trivial
  · exact .context (Goes.flow hx ⟨fun _ _ => rfl, by simp [Ctl.expects, Pc.expects], trivial, rfl, rfl⟩)
      (by simp [hx, Ctl.holds, Pc.holds]) (hx ▸ .head _)
  · exact .leave hx rfl rfl (by simp [Ctl.ownState]) (.tail _ (.head _)) rfl rfl
      (by simp [Ctl.expects, Pc.expects]) trivial
  · exact .sched hx (by simp [Ctl.ownState]) rfl .exited rfl trivial
  · exact .write hx rfl ‹_› (by decide) (fun h => by cases h) ⟨rfl, rfl⟩ ⟨rfl, rfl⟩
      (.head _) (fun _ => Iff.rfl) (by simp [Ctl.expects, Pc.expects]) trivial

end

omit [DecidableEq C] [DecidableEq M] in
theorem schedNext_legal (hx : s.ctl (.cpu c) = .run pc)
    (hnext : s.schedNext pc = some (op, x)) : s.Legal (.cpu c) op x := by
  unfold schedNext at hnext
  split at hnext
  all_goals try split_ifs at hnext
  all_goals cases hnext
  all_goals try
    exact Goes.stay hx ⟨fun _ _ => rfl, by simp_all [Ctl.expects, Pc.expects], trivial, rfl, rfl⟩ trivial
      fun _ => Iff.rfl
  · exact Goes.acquire hx ⟨fun _ _ => rfl, by simp [Ctl.expects, Pc.expects], trivial, rfl, rfl⟩
      (by simp [Ctl.holds, Pc.holds])
  · exact .pick rfl hx
  · exact .setProc rfl hx
  · exact .swtchIn rfl hx
  · exact .clearProc rfl hx
  · exact Goes.release hx ⟨fun _ _ => rfl, by simp [Ctl.expects, Pc.expects], trivial, rfl, rfl⟩
      (by simp [Ctl.holds, Pc.holds])

variable [DecidableEq K]

omit [DecidableEq C] [DecidableEq M] [DecidableEq K] in
theorem runNext_legal (h : Core s) (hx : s.ctl t = .run pc)
    (hnext : s.runNext t pc inp = some (op, x)) : s.Legal t op x := by
  unfold runNext at hnext
  split at hnext
  · next m =>
    split_ifs at hnext with hfree
    cases hnext
    refine Goes.acquire hx ⟨?_, fun e he => .inl he, hfree, rfl, ?_⟩ ?_
    · rintro p rfl
      exact (Ctl.ownState_of_holds hfree).symm
    · exact Ctl.picked_of_holds hfree
    · simp [Ctl.holds, hfree]
  split at hnext
  · next c =>
    split at hnext
    · exact schedNext_legal hx hnext
    · cases hnext
  · next p =>
    split at hnext
    · split_ifs at hnext with hfree
      cases hnext
      refine Goes.stay hx ⟨?_, fun e he => .inl he, hfree, rfl, ?_⟩ trivial ?_
      · exact fun _ _ => (Ctl.ownState_of_holds hfree).symm
      · exact Ctl.picked_of_holds hfree
      · simp [Ctl.holds, YieldPc.holds, hfree]
    all_goals try first
      | unfold userNext at hnext; split at hnext
      | unfold critNext at hnext; split at hnext
      | unfold exitNext at hnext; split at hnext
      | exact procNext_legal h hx hnext
    all_goals try split_ifs at hnext
    all_goals cases hnext
    all_goals try
      exact Goes.stay hx ⟨fun _ _ => rfl, by simp [Ctl.expects, Pc.expects, WakePc.expects], trivial, rfl, rfl⟩
        trivial fun _ => Iff.rfl
    all_goals try
      exact Goes.acquire hx ⟨fun _ _ => rfl, by simp [Ctl.expects, Pc.expects], trivial, rfl, rfl⟩
        (by simp [Ctl.holds, Pc.holds])
    rename_i caller _ _ _
    cases caller <;>
      exact Goes.release hx ⟨fun _ _ => rfl, by simp [Ctl.expects, Pc.expects, Caller.pc], trivial, rfl, rfl⟩
        (by simp [Ctl.holds, Pc.holds, Caller.pc])

section

omit [DecidableEq C] [DecidableEq M] [DecidableEq K] [NeZero n]

theorem frame_wake (t : Thread n C) (cont : WakeCont M) :
    Frame t cont.lock []
      (fun w : Option (Wake n M K) => match w with | some w => .wake w cont | none => .run cont.pc) where
  lock i := by cases cont <;> simp [WakeCont.lock]
  holds w := rfl
  back := by cases cont <;> rfl
  expects w := by simp [Ctl.expects]
  expects_back := by cases cont <;> rfl
  used e he := by cases he
  own w := by cases w <;> cases cont <;> rfl
  picked w := by cases w <;> cases cont <;> rfl
  rest w := by cases w <;> trivial

theorem frame_intr {t : Thread n C} {m : M} {back : Pc n M} (hrest : back.holds t = []) :
    Frame t (.other m) back.expects (fun w : Option (Wake n M K) => .intr m w back) where
  lock i := by simp
  holds w := rfl
  back := rfl
  expects w := rfl
  expects_back := rfl
  used e he := by
    rcases Pc.expects_holds t he with hmem | hused
    · rw [hrest] at hmem
      cases hmem
    · exact hused
  own w := rfl
  picked w := rfl
  rest w := hrest

end

omit [DecidableEq C] in
theorem next_legal (h : Core s) (hnext : s.next c t inp = some (op, x)) : s.Legal t op x := by
  have hrest := h.rest t
  unfold next at hnext
  split at hnext
  · next pc hx => exact runNext_legal h hx hnext
  · next w cont ok hx =>
    split at hnext
    · next op' w' hw =>
      cases hnext
      exact wakeNext_legal h (frame_wake _ cont) hx hw
    · next op' hw =>
      cases hnext
      exact wakeNext_legal h (frame_wake _ cont) hx hw
  · next pc cont p ok hx =>
    exact sleepNext_legal hx (some.inj hnext)
  · next pc back p ok hx =>
    rw [hx] at hrest
    exact yieldNext_legal hx hrest (some.inj hnext)
  · next m w back ok hx =>
    rw [hx] at hrest
    cases hnext
    exact wakeNext_legal h (frame_intr hrest) hx rfl
  · next m back ok hx =>
    rw [hx] at hrest
    cases hnext
    exact Goes.stay hx ⟨fun _ _ => rfl, fun e he => .inl he, hrest, rfl, rfl⟩ trivial fun _ => Iff.rfl
  · next m back k hx =>
    rw [hx] at hrest
    cases hnext
    exact Goes.stay hx ⟨fun _ _ => rfl, fun e he => .inl he, hrest, rfl, rfl⟩ trivial fun _ => Iff.rfl
  · next m back hx =>
    rw [hx] at hrest
    cases hnext
    refine Goes.release hx ⟨?_, fun e he => .inl he, trivial, ?_, rfl⟩ ?_
    · rintro p rfl
      exact Ctl.ownState_of_holds hrest
    · exact Ctl.picked_of_holds hrest
    · rw [Ctl.Rest] at hrest
      simp [Ctl.holds, hrest]
  · cases hnext

theorem Step.parts {l : C × Input M K} (h : s.Step l s') :
    ∃ op x s1, s.next l.1 (s.cur l.1) l.2 = some (op, x) ∧ s.exec l.1 op = some s1 ∧
      s' = s1.setCtl (s.cur l.1) x := by
  obtain ⟨⟨op, x⟩, hnext, h⟩ := Option.bind_eq_some_iff.mp h
  obtain ⟨s1, hexec, rfl⟩ := Option.map_eq_some_iff.mp h
  exact ⟨op, x, s1, hnext, hexec, rfl⟩

theorem Core.step (h : Core s) {l : C × Input M K} (hstep : s.Step l s') : Core s' := by
  obtain ⟨op, x, s1, hnext, hexec, rfl⟩ := hstep.parts
  exact (next_legal h hnext).core h rfl hexec

omit [DecidableEq C] [DecidableEq M] [DecidableEq K] in
theorem core_init : Core (init : Kernel n C M K) := by
  have hexpects : ∀ t : Thread n C, ((init : Kernel n C M K).ctl t).expects = [] := by
    intro t
    cases t with
    | proc p =>
      change (Ctl.run (if p = initproc n then Pc.forkret else .exited) : Ctl n M K).expects = []
      split_ifs <;> rfl
    | cpu c => rfl
  have hstate : ∀ p, ((init : Kernel n C M K).slot p).state ≠ .RUNNING := by
    intro p
    change (if p = initproc n then _ else _ : Slot n M K).state ≠ _
    split_ifs <;> simp
  refine ⟨?_, ?_, ?_, ?_, ?_, ?_, ?_, ?_, ?_, ?_, ?_, ?_⟩
  · intro ℓ c
    exact ⟨fun h => (by cases h), fun h => (by cases h)⟩
  · exact fun c p h => by cases h
  · exact fun c p h => by cases h
  · exact fun c p _ h => by cases h
  · exact fun c c' p h => by cases h
  · exact fun c c' p _ h => by cases h
  · intro p _
    change (Ctl.run (if p = initproc n then Pc.forkret else .exited) : Ctl n M K).Parked
    split_ifs
    · exact .forkret
    · exact .exited
  · exact fun c p h => by cases h
  · exact fun p h => absurd h (hstate p)
  · intro t e he
    rw [hexpects] at he
    cases he
  · intro t t' i hi
    rw [hexpects] at hi
    cases hi
  · intro t
    cases t <;> trivial

theorem core_run {ls : List (C × Input M K)} (h : Run Step (init : Kernel n C M K) ls s) : Core s :=
  h.invariant Core core_init fun _ _ _ hs hstep => hs.step hstep

end Kernel

end Xv6.Proc
