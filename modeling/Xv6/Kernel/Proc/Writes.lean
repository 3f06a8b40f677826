import Xv6.Kernel.Proc.Scheduling

namespace Xv6.Proc

open Transition Function

variable {n : Nat} {C M K : Type}

/-- The effects that are no more than taking or releasing a lock. -/
def Op.Silent : Op n M K → Prop
  | .skip => True
  | .acquire _ => True
  | .release _ => True
  | _ => False

/-- The slot to which something is written under its lock. -/
def Op.target : Op n M K → Option (Fin n)
  | .pid i _ => some i
  | .used i _ => some i
  | .trapframe i => some i
  | .pagetable i => some i
  | .freeproc i => some i
  | .reap i _ => some i
  | .state i _ => some i
  | .chan i _ => some i
  | .killed i => some i
  | .xstate i _ => some i
  | .zombie i _ => some i
  | _ => none

namespace Kernel

/-- The lines that write something, one by one. -/
inductive Writes [NeZero n] (s : Kernel n C M K) : Thread n C → Op n M K → Ctl n M K → Prop
  | takePid {p i : Fin n} (line : s.ctl (.proc p) = .run (.pidTake i)) :
      Writes s (.proc p) .takePid (.run (.pidUnlock i s.nextpid))
  | pid {p i : Fin n} {pid : Int} (line : s.ctl (.proc p) = .run (.setPid i pid)) :
      Writes s (.proc p) (.pid i pid) (.run (.setUsed i))
  | used {p i : Fin n} (line : s.ctl (.proc p) = .run (.setUsed i)) :
      Writes s (.proc p) (.used i (s.slot p).birth) (.run (.trapframe i))
  | trapframe {p i : Fin n} (line : s.ctl (.proc p) = .run (.trapframe i)) :
      Writes s (.proc p) (.trapframe i) (.run (.pagetable i))
  | pagetable {p i : Fin n} (line : s.ctl (.proc p) = .run (.pagetable i)) :
      Writes s (.proc p) (.pagetable i) (.run (.context i))
  | context {p i : Fin n} (line : s.ctl (.proc p) = .run (.context i)) :
      Writes s (.proc p) (.context i) (.run (.uvmcopy i))
  | filedup {p i : Fin n} (line : s.ctl (.proc p) = .run (.filedup i)) :
      Writes s (.proc p) (.files i fun fd => s.ofile p fd || s.ofile i fd) (.run (.forkUnlock i))
  | files {p : Fin n} {r : Int} {f : Fin NOFILE → Bool} (line : s.ctl (.proc p) = .run (.user r)) :
      Writes s (.proc p) (.files p f) (.run (.user r))
  | close {p : Fin n} {status : Int} {fd : Nat} (lt : fd < NOFILE)
      (line : s.ctl (.proc p) = .run (.exitFiles status fd)) :
      Writes s (.proc p) (.files p (update (s.ofile p) ⟨fd, lt⟩ false))
        (.run (.exitFiles status (fd + 1)))
  | freeproc {p i : Fin n} (line : s.ctl (.proc p) = .run (.forkFree i)) :
      Writes s (.proc p) (.freeproc i) (.run (.forkFail i))
  | reap {p j : Fin n} (line : s.ctl (.proc p) = .run (.waitFree j)) :
      Writes s (.proc p) (.reap j (s.slot p).birth) (.run (.waitUnlockp j (s.slot j).pid))
  | setParent {p i : Fin n} {pid : Int} (line : s.ctl (.proc p) = .run (.setParent i pid)) :
      Writes s (.proc p) (.parent i p) (.run (.parentUnlock i pid))
  | adopt {p j : Fin n} {status : Int} (line : s.ctl (.proc p) = .run (.adopt status j)) :
      Writes s (.proc p) (.parent j (initproc n))
        (.wake ⟨some (.proc (initproc n)), .next 0⟩ (.reparent status (j + 1)))
  | setRunnable {p i : Fin n} {pid : Int} (line : s.ctl (.proc p) = .run (.setRunnable i pid)) :
      Writes s (.proc p) (.state i .RUNNABLE) (.run (.runUnlock i pid))
  | killMark {p j : Fin n} {pid : Int} (line : s.ctl (.proc p) = .run (.killMark pid j)) :
      Writes s (.proc p) (.killed j) (.run (.killRouse pid j))
  | killRouse {p j : Fin n} {pid : Int} (sleeps : (s.slot j).state = .SLEEPING)
      (line : s.ctl (.proc p) = .run (.killRouse pid j)) :
      Writes s (.proc p) (.state j .RUNNABLE) (.run (.killUnlock pid j))
  | setkilled {p : Fin n} (line : s.ctl (.proc p) = .run .setkilledMark) :
      Writes s (.proc p) (.killed p) (.run .setkilledUnlock)
  | wake {t : Thread n C} {i : Fin n} {ch : Option (Chan n M K)} {cont : WakeCont M}
      (line : s.ctl t = .wake ⟨ch, .set i⟩ cont) :
      Writes s t (.state i .RUNNABLE) (.wake ⟨ch, .unlock i⟩ cont)
  | wakeIntr {t : Thread n C} {i : Fin n} {ch : Option (Chan n M K)} {m : M} {back : Pc n M}
      (line : s.ctl t = .intr m (some ⟨ch, .set i⟩) back) :
      Writes s t (.state i .RUNNABLE) (.intr m (some ⟨ch, .unlock i⟩) back)
  | sleepChan {p : Fin n} {cont : SleepCont M K} (line : s.ctl (.proc p) = .sleep .chan cont) :
      Writes s (.proc p) (.chan p (some (cont.chan p))) (.sleep .state cont)
  | sleepState {p : Fin n} {cont : SleepCont M K} (line : s.ctl (.proc p) = .sleep .state cont) :
      Writes s (.proc p) (.state p .SLEEPING) (.sleep .sched cont)
  | sleepSched {p : Fin n} {cont : SleepCont M K} (line : s.ctl (.proc p) = .sleep .sched cont) :
      Writes s (.proc p) (.swtch none) (.sleep .resumed cont)
  | sleepClear {p : Fin n} {cont : SleepCont M K} (line : s.ctl (.proc p) = .sleep .resumed cont) :
      Writes s (.proc p) (.chan p none) (.sleep .unlockp cont)
  | yieldState {p : Fin n} {back : Pc n M} (line : s.ctl (.proc p) = .yield .state back) :
      Writes s (.proc p) (.state p .RUNNABLE) (.yield .sched back)
  | yieldSched {p : Fin n} {back : Pc n M} (line : s.ctl (.proc p) = .yield .sched back) :
      Writes s (.proc p) (.swtch none) (.yield .resumed back)
  | xstate {p : Fin n} {status : Int} (line : s.ctl (.proc p) = .run (.exitXstate status)) :
      Writes s (.proc p) (.xstate p status) (.run (.exitZombie status))
  | zombie {p : Fin n} {status : Int} (line : s.ctl (.proc p) = .run (.exitZombie status)) :
      Writes s (.proc p) (.zombie p status) (.run .exitUnlock)
  | exitSched {p : Fin n} (line : s.ctl (.proc p) = .run .exitSched) :
      Writes s (.proc p) (.swtch none) (.run .exited)
  | pick {c : C} {i : Fin n} (line : s.ctl (.cpu c) = .run (.schedPick i)) :
      Writes s (.cpu c) (.state i .RUNNING) (.run (.schedProc i))
  | setProc {c : C} {i : Fin n} (line : s.ctl (.cpu c) = .run (.schedProc i)) :
      Writes s (.cpu c) (.cproc (some i)) (.run (.schedSwtch i))
  | swtchIn {c : C} {i : Fin n} (line : s.ctl (.cpu c) = .run (.schedSwtch i)) :
      Writes s (.cpu c) (.swtch (some i)) (.run (.schedBack i))
  | clearProc {c : C} {i : Fin n} (line : s.ctl (.cpu c) = .run (.schedBack i)) :
      Writes s (.cpu c) (.cproc none) (.run (.schedUnlock i))

variable [NeZero n] {s s' : Kernel n C M K} {c : C} {t : Thread n C} {x : Ctl n M K} {op : Op n M K}
variable {inp : Input M K}

theorem runNext_writes {pc : Pc n M} (hx : s.ctl t = .run pc)
    (hnext : s.runNext t pc inp = some (op, x)) : op.Silent ∨ s.Writes t op x := by
  unfold runNext at hnext
  split at hnext
  · split_ifs at hnext
    cases hnext
    exact .inl trivial
  split at hnext <;> split at hnext
  all_goals try first
    | unfold schedNext at hnext; split at hnext
    | unfold userNext at hnext; split at hnext
    | unfold critNext at hnext; split at hnext
    | unfold exitNext at hnext; split at hnext
    | unfold procNext at hnext; split at hnext
  all_goals try split_ifs at hnext
  all_goals cases hnext
  all_goals first | exact .inl trivial | exact .inr (by constructor <;> assumption)

theorem next_writes [DecidableEq M] [DecidableEq K] (hnext : s.next c t inp = some (op, x)) :
    op.Silent ∨ s.Writes t op x := by
  have hwake : ∀ {w : Wake n M K} {op' : Op n M K} {w' : Option (Wake n M K)} {self : Option (Fin n)},
      s.wakeNext self w = (op', w') → op'.Silent ∨
        ∃ i, w.pc = .set i ∧ op' = .state i .RUNNABLE ∧ w' = some ⟨w.chan, .unlock i⟩ := by
    intro w op' w' self h
    unfold wakeNext at h
    split at h
    · split_ifs at h <;> cases h <;> exact .inl trivial
    · split_ifs at h <;> cases h <;> exact .inl trivial
    · next i hpc =>
      cases h
      exact .inr ⟨i, hpc, rfl, rfl⟩
    · cases h
      exact .inl trivial
  unfold next at hnext
  split at hnext
  · next pc hx => exact runNext_writes hx hnext
  · next w cont ok hx =>
    split at hnext
    · next op' w' hw =>
      cases hnext
      rcases hwake hw with hs | ⟨i, hpc, rfl, hw'⟩
      · exact .inl hs
      · cases hw'
        obtain ⟨ch, pc⟩ := w
        cases hpc
        exact .inr (.wake hx)
    · next op' hw =>
      cases hnext
      rcases hwake hw with hs | ⟨i, hpc, rfl, hw'⟩
      · exact .inl hs
      · cases hw'
  · next pc cont p ok hx =>
    cases pc <;> cases hnext <;> first | exact .inl trivial | exact .inr (by constructor; assumption)
  · next pc back p ok hx =>
    cases pc <;> cases hnext <;> first | exact .inl trivial | exact .inr (by constructor; assumption)
  · next m w back ok hx =>
    cases hnext
    rcases hwake (w := w) rfl with hs | ⟨i, hpc, hop, hw'⟩
    · exact .inl hs
    · obtain ⟨ch, pc⟩ := w
      cases hpc
      exact .inr (.wakeIntr hx)
  · cases hnext
    exact .inl trivial
  · cases hnext
    exact .inl trivial
  · cases hnext
    exact .inl trivial
  · cases hnext

variable {i : Fin n}

/-- What is written to a slot is written under its lock. -/
theorem Writes.locked (h : s.Writes t op x) (hi : op.target = some i) :
    Lock.proc i ∈ (s.ctl t).holds t := by
  cases h <;> cases hi <;> rename_i line <;> rw [line] <;>
    simp [Ctl.holds, Pc.holds, WakePc.holds, SleepPc.holds, YieldPc.holds, Thread.own]

section Exec

variable [DecidableEq C] [DecidableEq M]

section

omit [NeZero n]

theorem exec_silent (hop : op.Silent) (h : s.exec c op = some s') :
    ∃ f, s' = { s with lock := f } := by
  cases op with
  | skip =>
    cases h
    exact ⟨s.lock, rfl⟩
  | acquire | release =>
    rw [exec] at h
    split_ifs at h
    cases h
    exact ⟨_, rfl⟩
  | _ => cases hop

variable (h : s.exec c op = some s')
include h

theorem exec_slot (hi : op.target ≠ some i) : s'.slot i = s.slot i := by
  have hwrite : ∀ {j : Fin n} {sl : Slot n M K}, some j ≠ some i → (s.write j sl).slot i = s.slot i :=
    fun hj => write_ne s (fun heq => hj (congrArg some heq.symm)) _
  cases op with
  | acquire | release =>
    obtain ⟨f, rfl⟩ := exec_silent (by exact trivial) h
    rfl
  | skip | takePid | context | files | parent | cproc | swtch => cases h; rfl
  | _ => cases h; exact hwrite hi

theorem exec_ofile (hi : ∀ f, op ≠ .files i f) : s'.ofile i = s.ofile i := by
  cases op with
  | acquire | release =>
    obtain ⟨f, rfl⟩ := exec_silent (by exact trivial) h
    rfl
  | files j f =>
    cases h
    exact update_of_ne (fun heq => hi f (by rw [heq])) ..
  | _ => cases h; rfl

theorem exec_parent (hp : ∀ q, op ≠ .parent i q) (hf : op ≠ .freeproc i)
    (hr : ∀ w, op ≠ .reap i w) : s'.parent i = s.parent i := by
  cases op with
  | acquire | release =>
    obtain ⟨f, rfl⟩ := exec_silent (by exact trivial) h
    rfl
  | parent j q =>
    cases h
    exact update_of_ne (fun heq => hp q (by rw [heq])) ..
  | freeproc j =>
    cases h
    exact update_of_ne (fun heq => hf (by rw [heq])) ..
  | reap j w =>
    cases h
    exact update_of_ne (fun heq => hr w (by rw [heq])) ..
  | _ => cases h; rfl

theorem exec_ctl {u : Thread n C} (hu : ∀ i, op = .context i → u ≠ .proc i) :
    s'.ctl u = s.ctl u := by
  cases op with
  | acquire | release =>
    obtain ⟨f, rfl⟩ := exec_silent (by exact trivial) h
    rfl
  | context j =>
    cases h
    exact setCtl_ne s (hu j rfl) _
  | _ => cases h; rfl

end

/-- What is in a slot stays as it is while another thread holds its lock. -/
theorem Core.slot_stable (h : Core s) (hcur : s.cur c = t) (hw : s.Writes t op x)
    (hexec : s.exec c op = some s') {c' : C} {u : Thread n C} (hu : s.cur c' = u) (hne : u ≠ t)
    (hi : Lock.proc i ∈ (s.ctl u).holds u) : s'.slot i = s.slot i := by
  refine exec_slot hexec fun htarget => hne ?_
  have hc := h.held_inj ((mem_held hu).mpr hi) ((mem_held hcur).mpr (hw.locked htarget))
  rw [← hu, ← hcur, hc]

section

omit [NeZero n] [DecidableEq C] [DecidableEq M]

theorem Core.current (h : Core s) {p : Fin n} (hp : ¬ (s.ctl (.proc p)).Parked) :
    ∃ c, s.cur c = .proc p := by
  by_contra hno
  push Not at hno
  exact hp (h.parked p fun c hc => hno c (cur_of_running hc))

theorem Core.own_state (h : Core s) {p : Fin n} (hcur : s.cur c = .proc p) :
    (s.slot p).state = (s.ctl (.proc p)).ownState :=
  h.own c p (cur_eq_proc.mp hcur)

end

end Exec

end Kernel

end Xv6.Proc
