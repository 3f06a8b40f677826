import Xv6.Kernel.Proc.Machine

namespace Xv6.Proc

open Transition Function Option List

variable {n : Nat} {C M K : Type}

/-- The state of a process as its own code has left it: it is running, unless it is about to give up
the CPU. -/
def Ctl.ownState : Ctl n M K → ProcState
  | .sleep .sched _ => .SLEEPING
  | .yield .sched _ => .RUNNABLE
  | .run .exitUnlock => .ZOMBIE
  | .run .exitSched => .ZOMBIE
  | _ => .RUNNING

/-- The states of other slots that the code relies on at a line. -/
def Pc.expects : Pc n M → List (Fin n × ProcState)
  | .pidLock i => [(i, .UNUSED)]
  | .pidTake i => [(i, .UNUSED)]
  | .pidUnlock i _ => [(i, .UNUSED)]
  | .setPid i _ => [(i, .UNUSED)]
  | .setUsed i => [(i, .UNUSED)]
  | .trapframe i => [(i, .USED)]
  | .pagetable i => [(i, .USED)]
  | .context i => [(i, .USED)]
  | .uvmcopy i => [(i, .USED)]
  | .filedup i => [(i, .USED)]
  | .forkFree i => [(i, .USED)]
  | .forkUnlock i => [(i, .USED)]
  | .parentLock i _ => [(i, .USED)]
  | .setParent i _ => [(i, .USED)]
  | .parentUnlock i _ => [(i, .USED)]
  | .runLock i _ => [(i, .USED)]
  | .setRunnable i _ => [(i, .USED)]
  | .waitCopy j => [(j, .ZOMBIE)]
  | .waitFree j => [(j, .ZOMBIE)]
  | .schedPick i => [(i, .RUNNABLE)]
  | .schedProc i => [(i, .RUNNING)]
  | .schedSwtch i => [(i, .RUNNING)]
  | _ => []

def WakePc.expects : WakePc n → List (Fin n × ProcState)
  | .set i => [(i, .SLEEPING)]
  | _ => []

def Ctl.expects : Ctl n M K → List (Fin n × ProcState)
  | .run pc => pc.expects
  | .wake w _ => w.pc.expects
  | .sleep _ _ => []
  | .yield _ back => back.expects
  | .intr _ none back => back.expects
  | .intr _ (some w) back => w.pc.expects ++ back.expects

/-- The process a scheduler is switching to or has come back from. -/
def Ctl.picked : Ctl n M K → Option (Fin n)
  | .run (.schedProc i) => some i
  | .run (.schedSwtch i) => some i
  | .run (.schedBack i) => some i
  | _ => none

/-- Where a context is that no CPU runs in. -/
inductive Ctl.Parked : Ctl n M K → Prop
  | forkret : Parked (.run .forkret)
  | exited : Parked (.run .exited)
  | sleep (cont : SleepCont M K) : Parked (.sleep .resumed cont)
  | yield (back : Pc n M) : Parked (.yield .resumed back)

/-- A line that was interrupted holds no lock. -/
def Ctl.Rest (t : Thread n C) : Ctl n M K → Prop
  | .yield _ back => back.holds (M := M) t = []
  | .intr _ _ back => back.holds (M := M) t = []
  | _ => True

variable {e : Fin n × ProcState} {pc : Pc n M}

theorem Pc.expects_holds (t : Thread n C)
    (h : e ∈ pc.expects) : Lock.proc e.1 ∈ pc.holds t ∨ e.2 = .USED := by
  cases pc <;> simp only [Pc.expects, mem_singleton, not_mem_nil] at h <;> subst h <;>
    simp [Pc.holds]

variable {x : Ctl n M K} {t : Thread n C}

theorem Ctl.expects_holds
    (hrest : x.Rest t) (h : e ∈ x.expects) : Lock.proc e.1 ∈ x.holds t ∨ e.2 = .USED := by
  have hback : ∀ {pc : Pc n M}, pc.holds t = [] → e ∈ pc.expects → e.2 = .USED := by
    intro pc hpc he
    rcases Pc.expects_holds t he with hmem | hused
    · rw [hpc] at hmem
      cases hmem
    · exact hused
  have hwake : ∀ {pc : WakePc n}, e ∈ pc.expects → Lock.proc e.1 ∈ (pc.holds : List (Lock n M)) := by
    intro pc he
    cases pc <;> simp only [WakePc.expects, mem_singleton, not_mem_nil] at he
    subst he
    simp [WakePc.holds]
  cases x with
  | run pc => exact Pc.expects_holds t h
  | wake w cont => exact .inl (.tail _ (hwake h))
  | sleep pc cont => cases h
  | yield pc back => exact .inr (hback hrest h)
  | intr m w back =>
    cases w with
    | none => exact .inr (hback hrest h)
    | some w =>
      rcases List.mem_append.mp h with he | he
      · exact .inl (.tail _ (hwake he))
      · exact .inr (hback hrest he)

theorem Ctl.Parked.expects (h : x.Parked) (hrest : x.Rest t) (he : e ∈ x.expects) :
    e.2 = .USED := by
  cases h with
  | forkret | exited | sleep => cases he
  | yield back =>
    rcases Pc.expects_holds t he with hmem | hused
    · rw [hrest] at hmem
      cases hmem
    · exact hused

theorem Ctl.Parked.holds (h : x.Parked) : x.holds t = t.own := by
  cases h <;> rfl

theorem Ctl.Parked.ownState (h : x.Parked) : x.ownState = .RUNNING := by
  cases h <;> rfl

theorem Ctl.holds_of_ownState (p : Fin n) (h : x.ownState ≠ .RUNNING) :
    Lock.proc p ∈ x.holds (.proc p : Thread n C) := by
  cases x with
  | run pc => cases pc <;> first | exact absurd rfl h | simp [Ctl.holds, Pc.holds, Thread.own]
  | wake | intr => exact absurd rfl h
  | sleep pc cont =>
    cases pc <;> first | exact absurd rfl h | simp [Ctl.holds, SleepPc.holds, Thread.own]
  | yield pc back =>
    cases pc <;> first | exact absurd rfl h | simp [Ctl.holds, YieldPc.holds, Thread.own]

theorem Ctl.holds_of_picked {i : Fin n} (h : x.picked = some i) : Lock.proc i ∈ x.holds t := by
  cases x with
  | run pc =>
    cases pc <;> simp only [Ctl.picked, some.injEq, reduceCtorEq] at h <;>
      simp [Ctl.holds, Pc.holds, h]
  | wake | sleep | yield | intr => cases h

theorem Ctl.ownState_of_holds {p : Fin n}
    (h : pc.holds (.proc p : Thread n C) = []) : (Ctl.run pc : Ctl n M K).ownState = .RUNNING := by
  by_contra hne
  have hmem := Ctl.holds_of_ownState (C := C) p hne
  rw [Ctl.holds, h] at hmem
  cases hmem

theorem Ctl.picked_of_holds (h : pc.holds t = []) : (Ctl.run pc : Ctl n M K).picked = none := by
  cases hp : (Ctl.run pc : Ctl n M K).picked with
  | none => rfl
  | some i =>
    have hmem := Ctl.holds_of_picked (t := t) hp
    rw [Ctl.holds, h] at hmem
    cases hmem

namespace Kernel

def held (s : Kernel n C M K) (c : C) : List (Lock n M) := (s.ctl (s.cur c)).holds (s.cur c)

/-- A scheduler has made the process running, and is about to switch to it. -/
def Picking (s : Kernel n C M K) (c : C) (p : Fin n) : Prop :=
  s.running c = none ∧
    (s.ctl (.cpu c) = .run (.schedProc p) ∨ s.ctl (.cpu c) = .run (.schedSwtch p))

/-- How locks, CPUs and states of processes belong together. -/
structure Core (s : Kernel n C M K) : Prop where
  locks : ∀ ℓ c, s.lock ℓ = some c ↔ ℓ ∈ s.held c
  stack : ∀ c p, s.running c = some p →
    s.cproc c = some p ∧ s.ctl (.cpu c) = .run (.schedBack p)
  cproc : ∀ c p, s.cproc c = some p → s.running c = some p ∨ s.running c = none ∧
    (s.ctl (.cpu c) = .run (.schedSwtch p) ∨ s.ctl (.cpu c) = .run (.schedBack p))
  set : ∀ c p, s.running c = none → s.ctl (.cpu c) = .run (.schedSwtch p) → s.cproc c = some p
  inj : ∀ c c' p, s.running c = some p → s.running c' = some p → c = c'
  alone : ∀ c c' p, s.running c = none → (s.ctl (.cpu c)).picked = some p → s.running c' ≠ some p
  parked : ∀ p, (∀ c, s.running c ≠ some p) → (s.ctl (.proc p)).Parked
  own : ∀ c p, s.running c = some p → (s.slot p).state = (s.ctl (.proc p)).ownState
  run : ∀ p, (s.slot p).state = .RUNNING →
    (∃ c, s.running c = some p) ∨ ∃ c, s.Picking c p
  expects : ∀ t, ∀ e ∈ (s.ctl t).expects, (s.slot e.1).state = e.2
  unique : ∀ t t' i, (i, .USED) ∈ (s.ctl t).expects → (i, .USED) ∈ (s.ctl t').expects → t = t'
  rest : ∀ t, (s.ctl t).Rest t

variable {s s' : Kernel n C M K} {c : C} {t : Thread n C} {x' : Ctl n M K} {i p : Fin n}

theorem cur_of_running (h : s.running c = some p) : s.cur c = .proc p := by
  unfold cur
  rw [h]

theorem cur_of_none (h : s.running c = none) : s.cur c = .cpu c := by
  unfold cur
  rw [h]

theorem cur_eq_proc : s.cur c = .proc p ↔ s.running c = some p := by
  unfold cur
  cases h : s.running c <;> simp

variable {c' : C}

theorem cur_eq_cpu : s.cur c = .cpu c' ↔ s.running c = none ∧ c = c' := by
  unfold cur
  cases h : s.running c <;> simp

theorem cur_congr (h : s'.running c = s.running c) : s'.cur c = s.cur c := by
  unfold cur
  rw [h]

theorem Core.cur_inj (h : Core s) {c : C} (heq : s.cur c = s.cur c') : c = c' := by
  cases hr : s.running c' with
  | none =>
    rw [cur_of_none hr] at heq
    exact (cur_eq_cpu.mp heq).2
  | some p =>
    rw [cur_of_running hr] at heq
    exact h.inj c c' p (cur_eq_proc.mp heq) hr

theorem Core.held_inj (h : Core s) {c : C} {ℓ : Lock n M} (hc : ℓ ∈ s.held c)
    (hc' : ℓ ∈ s.held c') : c = c' :=
  some.inj (((h.locks ℓ c).mpr hc).symm.trans ((h.locks ℓ c').mpr hc'))

theorem mem_held (hcur : s.cur c = t) {ℓ : Lock n M} : ℓ ∈ s.held c ↔ ℓ ∈ (s.ctl t).holds t := by
  rw [held, hcur]

/-- What a thread relies on is protected by a lock it holds, apart from a slot in use for which
nothing runs yet. -/
theorem Core.expects_held (h : Core s) (he : e ∈ (s.ctl t).expects) :
    (∃ c, s.cur c = t ∧ Lock.proc e.1 ∈ s.held c) ∨ e.2 = .USED := by
  by_cases hcur : ∃ c, s.cur c = t
  · obtain ⟨c, hc⟩ := hcur
    rcases Ctl.expects_holds (h.rest t) he with hmem | hused
    · exact .inl ⟨c, hc, (mem_held hc).mpr hmem⟩
    · exact .inr hused
  push Not at hcur
  right
  cases t with
  | proc p =>
    have hp : ∀ c, s.running c ≠ some p := fun c hc => hcur c (cur_of_running hc)
    exact (h.parked p hp).expects (h.rest _) he
  | cpu c =>
    cases hr : s.running c with
    | none => exact absurd (cur_of_none hr) (hcur c)
    | some p =>
      rw [(h.stack c p hr).2] at he
      cases he

variable [DecidableEq C]

/-- A step of the current thread that does not switch to another one. It changes the state of a
slot only with the slot's lock, and knows the state it changes. -/
theorem Core.advance (h : Core s) (hcur : s.cur c = t)
    (hrunning : s'.running = s.running) (hcproc : s'.cproc = s.cproc) (hctl : s'.ctl = s.ctl)
    (hothers : ∀ ℓ c', c' ≠ c → (s'.lock ℓ = some c' ↔ s.lock ℓ = some c'))
    (hlock : ∀ ℓ, s'.lock ℓ = some c ↔ ℓ ∈ x'.holds t)
    (hwrite : ∀ i, (s'.slot i).state ≠ (s.slot i).state → Lock.proc i ∈ (s.ctl t).holds t ∧
      ((s.slot i).state = .USED → (i, .USED) ∈ (s.ctl t).expects) ∧
      ((s.slot i).state = .RUNNING → t = .proc i))
    (hown : ∀ p, t = .proc p → (s'.slot p).state = x'.ownState)
    (hexpects : ∀ e ∈ x'.expects, (s'.slot e.1).state = e.2) (hused : ∀ i, (i, .USED) ∈ x'.expects →
      (i, .USED) ∈ (s.ctl t).expects ∨ (s.slot i).state ≠ .USED) (hrest : x'.Rest t)
    (hnew : ∀ i, (s'.slot i).state = .RUNNING → (s.slot i).state ≠ .RUNNING →
      t = .cpu c ∧ x' = .run (.schedProc i))
    (hpicked : t = .cpu c → ∀ i, x'.picked = some i → (s.ctl t).picked = some i ∨
      (s.slot i).state = .RUNNABLE ∧ Lock.proc i ∈ (s.ctl t).holds t)
    (hpicking : t = .cpu c → ∀ i, ¬ s.Picking c i)
    (hback : t = .cpu c → ∀ p, s.cproc c = some p → x' = .run (.schedBack p))
    (hset : t = .cpu c → ∀ p, x' ≠ .run (.schedSwtch p)) :
    Core (s'.setCtl t x') := by
  have hcur' : ∀ c', (s'.setCtl t x').cur c' = s.cur c' :=
    fun c' => cur_congr (congrFun hrunning c')
  have hsame : ∀ u, u ≠ t → (s'.setCtl t x').ctl u = s.ctl u := by
    intro u hu
    rw [setCtl, hctl]
    exact update_of_ne hu ..
  have hself : (s'.setCtl t x').ctl t = x' := update_self ..
  have hne : ∀ c', c' ≠ c → s.cur c' ≠ t := fun c' hc' heq => hc' (h.cur_inj (heq.trans hcur.symm))
  have hcpu : ∀ c', Thread.cpu c' = t → c' = c ∧ s.running c = none := by
    intro c' heq
    have hc := cur_eq_cpu.mp (hcur.trans heq.symm)
    exact ⟨hc.2.symm, hc.1⟩
  have hproc : ∀ p, Thread.proc p = t → s.running c = some p :=
    fun p heq => cur_eq_proc.mp (hcur.trans heq.symm)
  refine ⟨?_, ?_, ?_, ?_, ?_, ?_, ?_, ?_, ?_, ?_, ?_, ?_⟩
  · intro ℓ c'
    by_cases hc : c' = c
    · rw [hc, held, hcur', hcur, hself]
      exact hlock ℓ
    · rw [held, hcur', hsame _ (hne c' hc)]
      exact (hothers ℓ c' hc).trans (h.locks ℓ c')
  · intro c' p hr
    rw [setCtl, hrunning] at hr
    refine ⟨by rw [setCtl, hcproc]; exact (h.stack c' p hr).1, ?_⟩
    rw [hsame _ fun heq => ?_]
    · exact (h.stack c' p hr).2
    · obtain ⟨rfl, hnone⟩ := hcpu c' heq
      rw [hnone] at hr
      cases hr
  · intro c' p hp
    rw [setCtl, hcproc] at hp
    rw [show (s'.setCtl t x').running = s.running from hrunning]
    rcases h.cproc c' p hp with hr | ⟨hr, hpc⟩
    · exact .inl hr
    refine .inr ⟨hr, ?_⟩
    by_cases heq : Thread.cpu c' = t
    · obtain ⟨rfl, -⟩ := hcpu c' heq
      rw [heq, hself]
      exact .inr (hback heq.symm p hp)
    · rw [hsame _ heq]
      exact hpc
  · intro c' p hr hp
    rw [setCtl, hrunning] at hr
    rw [show (s'.setCtl t x').cproc = s.cproc from hcproc]
    by_cases heq : Thread.cpu c' = t
    · obtain ⟨rfl, -⟩ := hcpu c' heq
      rw [heq, hself] at hp
      exact absurd hp (hset heq.symm p)
    · rw [hsame _ heq] at hp
      exact h.set c' p hr hp
  · intro c1 c2 p h1 h2
    rw [setCtl, hrunning] at h1 h2
    exact h.inj c1 c2 p h1 h2
  · intro c1 c2 p h1 hp h2
    rw [setCtl, hrunning] at h1 h2
    by_cases heq : Thread.cpu c1 = t
    · obtain ⟨rfl, -⟩ := hcpu c1 heq
      rw [heq, hself] at hp
      rcases hpicked heq.symm p hp with hold | ⟨hst, hmem⟩
      · exact h.alone c1 c2 p h1 (heq ▸ hold) h2
      have hleaving : (s.ctl (.proc p)).ownState ≠ .RUNNING := by
        rw [← h.own c2 p h2, hst]
        decide
      have hmem2 := (mem_held (cur_of_running h2)).mpr (Ctl.holds_of_ownState (C := C) p hleaving)
      obtain rfl := h.held_inj hmem2 ((mem_held hcur).mpr hmem)
      rw [h1] at h2
      cases h2
    · rw [hsame _ heq] at hp
      exact h.alone c1 c2 p h1 hp h2
  · intro p hp
    have hp' : ∀ c, s.running c ≠ some p := fun c hc => hp c (by rw [setCtl, hrunning]; exact hc)
    rw [hsame _ fun heq => hp' c (hproc p heq)]
    exact h.parked p hp'
  · intro c' p hr
    rw [setCtl, hrunning] at hr
    by_cases heq : Thread.proc p = t
    · rw [heq, hself]
      exact hown p heq.symm
    rw [hsame _ heq]
    by_cases hst : (s'.slot p).state = (s.slot p).state
    · exact hst.trans (h.own c' p hr)
    obtain ⟨hmem, -, hrun⟩ := hwrite p hst
    have hleaving : (s.ctl (.proc p)).ownState ≠ .RUNNING := by
      rw [← h.own c' p hr]
      exact fun hrunning => heq (hrun hrunning).symm
    have hmem' := (mem_held (cur_of_running hr)).mpr (Ctl.holds_of_ownState (C := C) p hleaving)
    obtain rfl := h.held_inj hmem' ((mem_held hcur).mpr hmem)
    exact absurd (hcur.symm.trans (cur_of_running hr)).symm heq
  · intro p hp
    have hrun' : (s'.setCtl t x').running = s.running := hrunning
    by_cases hold : (s.slot p).state = .RUNNING
    · rcases h.run p hold with ⟨c', hr⟩ | ⟨c', hpick⟩
      · exact .inl ⟨c', hrun' ▸ hr⟩
      · refine .inr ⟨c', hrun' ▸ hpick.1, ?_⟩
        rw [hsame _ fun heq => ?_]
        · exact hpick.2
        · obtain ⟨rfl, -⟩ := hcpu c' heq
          exact hpicking heq.symm p hpick
    · obtain ⟨ht, hx⟩ := hnew p hp hold
      refine .inr ⟨c, hrun' ▸ (cur_eq_cpu.mp (hcur.trans ht)).1, .inl ?_⟩
      rw [← ht, hself, hx]
  · intro u e he
    by_cases hu : u = t
    · rw [hu, hself] at he
      exact hexpects e he
    rw [hsame u hu] at he
    by_cases hst : (s'.slot e.1).state = (s.slot e.1).state
    · exact hst.trans (h.expects u e he)
    obtain ⟨hmem, huse, -⟩ := hwrite e.1 hst
    rcases h.expects_held he with ⟨c', hc', hmem'⟩ | hUSED
    · obtain rfl := h.held_inj hmem' ((mem_held hcur).mpr hmem)
      exact absurd (hc'.symm.trans hcur) hu
    · obtain ⟨i, st⟩ := e
      obtain rfl : st = .USED := hUSED
      exact absurd (h.unique u t i he (huse (h.expects u _ he))) hu
  · intro u v i hu hv
    have hother : ∀ w, w ≠ t → (i, .USED) ∈ (s.ctl w).expects → (i, .USED) ∉ x'.expects := by
      intro w hw hmem hx
      rcases hused i hx with hold | hst
      · exact hw (h.unique w t i hmem hold)
      · exact hst (h.expects w _ hmem)
    by_cases hut : u = t
    · by_cases hvt : v = t
      · rw [hut, hvt]
      · rw [hut, hself] at hu
        rw [hsame v hvt] at hv
        exact absurd hu (hother v hvt hv)
    rw [hsame u hut] at hu
    by_cases hvt : v = t
    · rw [hvt, hself] at hv
      exact absurd hv (hother u hut hu)
    · rw [hsame v hvt] at hv
      exact h.unique u v i hu hv
  · intro u
    by_cases hu : u = t
    · rw [hu, hself]
      exact hrest
    · rw [hsame u hu]
      exact h.rest u

/-- The process gives up the CPU: the scheduler goes on with the process's lock. -/
theorem Core.swtch_out (h : Core s) (hr : s.running c = some p) (hslot : s'.slot = s.slot)
    (hlock : s'.lock = s.lock) (hcproc : s'.cproc = s.cproc)
    (hrunning : s'.running = update s.running c none) (hctl : s'.ctl = update s.ctl (.proc p) x')
    (hholds : (s.ctl (.proc p)).holds (.proc p : Thread n C) = [.proc p])
    (hown : (s.ctl (.proc p)).ownState ≠ .RUNNING) (hparked : x'.Parked)
    (hexpects : x'.expects = (s.ctl (.proc p)).expects) (hrest : x'.Rest (.proc p : Thread n C)) :
    Core s' := by
  have hcpu : ∀ c', s'.ctl (.cpu c') = s.ctl (.cpu c') := fun c' => by
    rw [hctl, update_of_ne (by simp)]
  have hself : s'.ctl (.proc p) = x' := by rw [hctl, update_self]
  have hproc : ∀ u, u ≠ .proc p → s'.ctl u = s.ctl u := fun u hu => by
    rw [hctl, update_of_ne hu]
  have hgone : s'.running c = none := by rw [hrunning, update_self]
  have hothers : ∀ c', c' ≠ c → s'.running c' = s.running c' := fun c' hc => by
    rw [hrunning, update_of_ne hc]
  have hold : ∀ c' q, s'.running c' = some q → s.running c' = some q ∧ c' ≠ c ∧ q ≠ p := by
    intro c' q hq
    by_cases hc : c' = c
    · rw [hc, hgone] at hq
      cases hq
    · rw [hothers c' hc] at hq
      exact ⟨hq, hc, fun heq => hc (h.inj c' c p (heq ▸ hq) hr)⟩
  have hexp : ∀ u, (s'.ctl u).expects = (s.ctl u).expects := by
    intro u
    by_cases hu : u = .proc p
    · rw [hu, hself, hexpects]
    · rw [hproc u hu]
  refine ⟨?_, ?_, ?_, ?_, ?_, ?_, ?_, ?_, ?_, ?_, ?_, ?_⟩
  · intro ℓ c'
    rw [hlock, h.locks]
    by_cases hc : c' = c
    · rw [hc, held, held, cur_of_running hr, hholds, cur_of_none hgone, hcpu, (h.stack c p hr).2]
      rfl
    · rw [held, held, cur_congr (hothers c' hc), hproc _ fun heq =>
        hc (h.cur_inj (heq.trans (cur_of_running hr).symm))]
  · intro c' q hq
    obtain ⟨hq, -, -⟩ := hold c' q hq
    rw [hcproc, hcpu]
    exact h.stack c' q hq
  · intro c' q hq
    rw [hcproc] at hq
    rw [hcpu]
    by_cases hc : c' = c
    · subst hc
      obtain rfl : p = q := some.inj ((h.stack c' p hr).1.symm.trans hq)
      exact .inr ⟨hgone, .inr (h.stack c' p hr).2⟩
    · rw [hothers c' hc]
      exact h.cproc c' q hq
  · intro c' q hq hpc
    rw [hcpu] at hpc
    rw [hcproc]
    by_cases hc : c' = c
    · rw [hc, (h.stack c p hr).2] at hpc
      cases hpc
    · exact h.set c' q (hothers c' hc ▸ hq) hpc
  · intro c1 c2 q h1 h2
    exact h.inj c1 c2 q (hold c1 q h1).1 (hold c2 q h2).1
  · intro c1 c2 q h1 hpick h2
    obtain ⟨h2, hc2, hq⟩ := hold c2 q h2
    rw [hcpu] at hpick
    by_cases hc : c1 = c
    · rw [hc, (h.stack c p hr).2] at hpick
      exact hq (some.inj hpick).symm
    · exact h.alone c1 c2 q (hothers c1 hc ▸ h1) hpick h2
  · intro q hq
    by_cases hqp : q = p
    · rw [hqp, hself]
      exact hparked
    · rw [hproc _ (by simpa using hqp)]
      refine h.parked q fun c' hc' => ?_
      have hc : c' ≠ c := fun hc => hqp (some.inj ((hc ▸ hc').symm.trans hr))
      exact hq c' ((hothers c' hc).trans hc')
  · intro c' q hq
    obtain ⟨hq, -, hqp⟩ := hold c' q hq
    rw [hslot, hproc _ (by simpa using hqp)]
    exact h.own c' q hq
  · intro q hq
    rw [hslot] at hq
    have hqp : q ≠ p := by
      rintro rfl
      exact hown ((h.own c q hr).symm.trans hq)
    rcases h.run q hq with ⟨c', hc'⟩ | ⟨c', hrn, hpc⟩
    · have hc : c' ≠ c := fun hc => hqp (some.inj ((hc ▸ hc').symm.trans hr))
      exact .inl ⟨c', (hothers c' hc).trans hc'⟩
    · have hc : c' ≠ c := fun hc => by
        rw [hc, hr] at hrn
        cases hrn
      exact .inr ⟨c', (hothers c' hc).trans hrn, (hcpu c').symm ▸ hpc⟩
  · intro u e he
    rw [hslot]
    exact h.expects u e (hexp u ▸ he)
  · intro u v i hu hv
    exact h.unique u v i (hexp u ▸ hu) (hexp v ▸ hv)
  · intro u
    by_cases hu : u = .proc p
    · rw [hu, hself]
      exact hrest
    · rw [hproc u hu]
      exact h.rest u

theorem Core.sched_step (h : Core s) (hr : s.running c = none)
    (hx : s.ctl (.cpu c) = x) (hslot : s'.slot = s.slot) (hlock : s'.lock = s.lock)
    (hctl : s'.ctl = update s.ctl (.cpu c) x') (hcproc : ∀ c', c' ≠ c → s'.cproc c' = s.cproc c')
    (hrunning : ∀ c', c' ≠ c → s'.running c' = s.running c')
    (hheld : ∀ ℓ, ℓ ∈ x.holds (.cpu c : Thread n C) ↔ ℓ ∈ s'.held c)
    (hstack : ∀ p, s'.running c = some p → s'.cproc c = some p ∧ x' = .run (.schedBack p) ∧
      x.picked = some p ∧ (s.slot p).state = .RUNNING)
    (hset : ∀ p, s'.cproc c = some p → s'.running c = some p ∨
      s'.running c = none ∧ (x' = .run (.schedSwtch p) ∨ x' = .run (.schedBack p)))
    (hswtch : ∀ p, x' = .run (.schedSwtch p) → s'.cproc c = some p)
    (hpicked : s'.running c = none → ∀ p, x'.picked = some p → x.picked = some p)
    (hrun : ∀ p, x = .run (.schedProc p) ∨ x = .run (.schedSwtch p) →
      s'.running c = some p ∨ s'.running c = none ∧ x' = .run (.schedSwtch p))
    (hexpects : ∀ e ∈ x'.expects, e ∈ x.expects) (hused : ∀ i, (i, .USED) ∉ x.expects)
    (hrest : x'.Rest (.cpu c : Thread n C)) : Core s' := by
  have hself : s'.ctl (.cpu c) = x' := by rw [hctl, update_self]
  have hsame : ∀ u, u ≠ .cpu c → s'.ctl u = s.ctl u := fun u hu => by
    rw [hctl, update_of_ne hu]
  have hcpu : ∀ c', c' ≠ c → s'.ctl (.cpu c') = s.ctl (.cpu c') := fun c' hc =>
    hsame _ (by simpa using hc)
  have hproc : ∀ p, s'.ctl (.proc p) = s.ctl (.proc p) := fun p => hsame _ (by simp)
  have halone : ∀ c' p, s'.running c = some p → c' ≠ c → s.running c' ≠ some p :=
    fun c' p hp _ => h.alone c c' p hr (by rw [hx]; exact (hstack p hp).2.2.1)
  have hexp : ∀ u i, (i, .USED) ∈ (s'.ctl u).expects → (i, .USED) ∈ (s.ctl u).expects := by
    intro u i hi
    by_cases hu : u = .cpu c
    · rw [hu, hself] at hi
      exact absurd (hexpects _ hi) (hused i)
    · rwa [hsame u hu] at hi
  refine ⟨?_, ?_, ?_, ?_, ?_, ?_, ?_, ?_, ?_, ?_, ?_, ?_⟩
  · intro ℓ c'
    rw [hlock, h.locks]
    by_cases hc : c' = c
    · rw [hc, ← hheld, held, cur_of_none hr, hx]
    · rw [held, held, cur_congr (hrunning c' hc), hsame _ fun heq => hc (cur_eq_cpu.mp heq).2]
  · intro c' p hp
    by_cases hc : c' = c
    · rw [hc] at hp ⊢
      rw [hself]
      exact ⟨(hstack p hp).1, (hstack p hp).2.1⟩
    · rw [hcproc c' hc, hcpu c' hc]
      exact h.stack c' p (hrunning c' hc ▸ hp)
  · intro c' p hp
    by_cases hc : c' = c
    · rw [hc] at hp ⊢
      rw [hself]
      exact hset p hp
    · rw [hrunning c' hc, hcpu c' hc]
      exact h.cproc c' p (hcproc c' hc ▸ hp)
  · intro c' p hp hpc
    by_cases hc : c' = c
    · rw [hc] at hpc ⊢
      exact hswtch p (hself ▸ hpc)
    · rw [hcproc c' hc]
      exact h.set c' p (hrunning c' hc ▸ hp) (hcpu c' hc ▸ hpc)
  · intro c1 c2 p h1 h2
    by_cases hc1 : c1 = c
    · by_cases hc2 : c2 = c
      · rw [hc1, hc2]
      · exact absurd (hrunning c2 hc2 ▸ h2) (halone c2 p (hc1 ▸ h1) hc2)
    · rw [hrunning c1 hc1] at h1
      by_cases hc2 : c2 = c
      · exact absurd h1 (halone c1 p (hc2 ▸ h2) hc1)
      · exact h.inj c1 c2 p h1 (hrunning c2 hc2 ▸ h2)
  · intro c1 c2 p h1 hpick h2
    by_cases hc1 : c1 = c
    · rw [hc1] at h1 hpick
      rw [hself] at hpick
      by_cases hc2 : c2 = c
      · rw [hc2, h1] at h2
        cases h2
      · exact h.alone c c2 p hr (hx ▸ hpicked h1 p hpick) (hrunning c2 hc2 ▸ h2)
    rw [hrunning c1 hc1] at h1
    rw [hcpu c1 hc1] at hpick
    by_cases hc2 : c2 = c
    · -- both schedulers would hold the lock of the process
      have hmem1 := (mem_held (cur_of_none h1)).mpr (Ctl.holds_of_picked hpick)
      have hmem := (mem_held (cur_of_none hr)).mpr
        (Ctl.holds_of_picked (hx ▸ (hstack p (hc2 ▸ h2)).2.2.1))
      exact hc1 (h.held_inj hmem1 hmem)
    · exact h.alone c1 c2 p h1 hpick (hrunning c2 hc2 ▸ h2)
  · intro p hp
    rw [hproc]
    refine h.parked p fun c' hc' => ?_
    by_cases hc : c' = c
    · rw [hc, hr] at hc'
      cases hc'
    · exact hp c' ((hrunning c' hc).trans hc')
  · intro c' p hp
    rw [hslot, hproc]
    by_cases hc : c' = c
    · rw [hc] at hp
      have hparked : ∀ c', s.running c' ≠ some p :=
        fun c' => h.alone c c' p hr (hx ▸ (hstack p hp).2.2.1)
      rw [(hstack p hp).2.2.2, (h.parked p hparked).ownState]
    · exact h.own c' p (hrunning c' hc ▸ hp)
  · intro p hp
    rw [hslot] at hp
    rcases h.run p hp with ⟨c', hc'⟩ | ⟨c', hrn, hpc⟩
    · have hc : c' ≠ c := fun hc => by
        rw [hc, hr] at hc'
        cases hc'
      exact .inl ⟨c', (hrunning c' hc).trans hc'⟩
    by_cases hc : c' = c
    · rw [hc, hx] at hpc
      rcases hrun p hpc with hsome | ⟨hnone, hpc'⟩
      · exact .inl ⟨c, hsome⟩
      · exact .inr ⟨c, hnone, .inr (hself.trans hpc')⟩
    · exact .inr ⟨c', (hrunning c' hc).trans hrn, (hcpu c' hc).symm ▸ hpc⟩
  · intro u e he
    rw [hslot]
    by_cases hu : u = .cpu c
    · rw [hu, hself] at he
      exact h.expects (.cpu c) e (hx ▸ hexpects e he)
    · rw [hsame u hu] at he
      exact h.expects u e he
  · intro u v i hu hv
    exact h.unique u v i (hexp u i hu) (hexp v i hv)
  · intro u
    by_cases hu : u = .cpu c
    · rw [hu, hself]
      exact hrest
    · rw [hsame u hu]
      exact h.rest u

/-- The context of a process that no CPU runs is set up. -/
theorem Core.context (h : Core s) (hi : ∀ c, s.running c ≠ some i) :
    Core (s.setCtl (.proc i) (.run .forkret)) := by
  have hself : (s.setCtl (.proc i) (.run .forkret)).ctl (.proc i) = .run .forkret := update_self ..
  have hsame : ∀ u, u ≠ .proc i → (s.setCtl (.proc i) (.run .forkret)).ctl u = s.ctl u :=
    fun u hu => update_of_ne hu ..
  have hcpu : ∀ c, (s.setCtl (.proc i) (.run .forkret)).ctl (.cpu c) = s.ctl (.cpu c) :=
    fun c => hsame _ (by simp)
  have hcur : ∀ c, s.cur c ≠ .proc i := fun c hc => hi c (cur_eq_proc.mp hc)
  have hexp : ∀ u, ∀ e ∈ ((s.setCtl (.proc i) (.run .forkret)).ctl u).expects,
      e ∈ (s.ctl u).expects := by
    intro u e he
    by_cases hu : u = .proc i
    · rw [hu, hself] at he
      cases he
    · rwa [hsame u hu] at he
  refine ⟨?_, ?_, ?_, ?_, h.inj, ?_, ?_, ?_, ?_, ?_, ?_, ?_⟩
  · intro ℓ c
    have hc : (s.setCtl (.proc i) (.run .forkret)).cur c = s.cur c := cur_congr rfl
    refine (h.locks ℓ c).trans ?_
    rw [held, held, hc, hsame _ (hcur c)]
  · intro c p hp
    rw [hcpu]
    exact h.stack c p hp
  · intro c p hp
    rw [hcpu]
    exact h.cproc c p hp
  · intro c p hr hp
    exact h.set c p hr (hcpu c ▸ hp)
  · intro c c' p hr hp
    exact h.alone c c' p hr (hcpu c ▸ hp)
  · intro p hp
    by_cases hpi : p = i
    · rw [hpi, hself]
      exact .forkret
    · rw [hsame _ (by simpa using hpi)]
      exact h.parked p hp
  · intro c p hp
    rw [hsame _ fun heq => hi c (by cases heq; exact hp)]
    exact h.own c p hp
  · intro p hp
    rcases h.run p hp with hr | ⟨c, hr, hpc⟩
    · exact .inl hr
    · exact .inr ⟨c, hr, (hcpu c).symm ▸ hpc⟩
  · exact fun u e he => h.expects u e (hexp u e he)
  · exact fun u v j hu hv => h.unique u v j (hexp u _ hu) (hexp v _ hv)
  intro u
  by_cases hu : u = .proc i
  · rw [hu, hself]
    trivial
  · rw [hsame u hu]
    exact h.rest u

end Kernel

end Xv6.Proc
