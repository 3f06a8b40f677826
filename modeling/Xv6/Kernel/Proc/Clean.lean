import Xv6.Kernel.Proc.Writes

namespace Xv6.Proc

open Transition Function

variable {n : Nat} {C M K : Type}

/-- The line of `proc.c` a thread is at, or to which it will return. -/
def Ctl.line : Ctl n M K → Pc n M
  | .run pc => pc
  | .wake _ cont => cont.pc
  | .sleep _ cont => cont.pc
  | .yield _ back => back
  | .intr _ _ back => back

/-- The new slot of a `fork` that has not copied the open files yet. -/
def Pc.fresh : Pc n M → Option (Fin n)
  | .trapframe i => some i
  | .pagetable i => some i
  | .context i => some i
  | .uvmcopy i => some i
  | .filedup i => some i
  | .forkFree i => some i
  | _ => none

/-- The new slot of a `fork` that has set up its context. -/
def Pc.built : Pc n M → Option (Fin n)
  | .uvmcopy i => some i
  | .filedup i => some i
  | .forkUnlock i => some i
  | .parentLock i _ => some i
  | .setParent i _ => some i
  | .parentUnlock i _ => some i
  | .runLock i _ => some i
  | .setRunnable i _ => some i
  | _ => none

/-- How many open files `exit` has closed so far. -/
def Pc.closed : Pc n M → Nat
  | .exitFiles _ fd => fd
  | .crit _ (.exit _ fd) => fd
  | .exitLock _ => NOFILE
  | .reparent _ _ => NOFILE
  | .adopt _ _ => NOFILE
  | .exitWake _ => NOFILE
  | .exitLockp _ => NOFILE
  | .exitXstate _ => NOFILE
  | .exitZombie _ => NOFILE
  | .exitUnlock => NOFILE
  | .exitSched => NOFILE
  | .exited => NOFILE
  | _ => 0

/-- The argument of `kill`. -/
def Pc.killArg : Pc n M → Option Int
  | .killLock a _ => some a
  | .killTest a _ => some a
  | .killMark a _ => some a
  | .killRouse a _ => some a
  | .killUnlock a _ => some a
  | .killSkip a _ => some a
  | _ => none

def Input.killsZero : Input M K → Bool
  | .kill a => a = 0
  | _ => false

/-- The lines that need something of a slot or of its parent. -/
def Pc.Plain : Pc n M → Prop
  | .killMark _ _ => False
  | .killRouse _ _ => False
  | .killUnlock _ _ => False
  | .setUsed _ => False
  | .adopt _ _ => False
  | _ => True

variable {pc : Pc n M}

theorem Pc.plain_of_holds {t : Thread n C} (h : pc.holds t = []) : pc.Plain := by
  cases pc <;> trivial

namespace Kernel

variable {s s' : Kernel n C M K} {c : C} {t : Thread n C} {x : Ctl n M K} {op : Op n M K}
variable {inp : Input M K}

/-- How a thread goes on that writes nothing. -/
structure Passes (s : Kernel n C M K) (t : Thread n C) (inp : Input M K) (x : Ctl n M K) : Prop where
  fresh : ∀ i, x.line.fresh = some i → (s.ctl t).line.fresh = some i
  built : ∀ i, x.line.built = some i → (s.ctl t).line.built = some i
  closed : x.line.closed ≤ (s.ctl t).line.closed
  killArg : ∀ a, x.line.killArg = some a → (s.ctl t).line.killArg = some a ∨ inp = .kill a
  mark : ∀ a j, x = .run (.killMark a j) →
    s.ctl t = .run (.killTest a j) ∧ (s.slot j).pid = a
  rouse : ∀ a j, x ≠ .run (.killRouse a j)
  unlock : ∀ a j, x = .run (.killUnlock a j) → s.ctl t = .run (.killRouse a j)
  used : ∀ i, x ≠ .run (.setUsed i)
  adopt : ∀ status j, x = .run (.adopt status j) →
    (∃ j, s.ctl t = .run (.reparent status j)) ∧ ∃ p, t = .proc p ∧ s.parent j = some p

theorem Passes.of_line (hline : x.line = (s.ctl t).line) (hx : ∀ pc, x = .run pc → pc.Plain) :
    s.Passes t inp x := by
  refine ⟨fun i hi => hline ▸ hi, fun i hi => hline ▸ hi, by rw [hline], fun a ha => .inl (hline ▸ ha),
    fun a j h => absurd (hx _ h) id, fun a j h => absurd (hx _ h) id, fun a j h => absurd (hx _ h) id,
    fun i h => absurd (hx _ h) id, fun status j h => absurd (hx _ h) id⟩

variable [NeZero n]

theorem runNext_passes (hx : s.ctl t = .run pc)
    (hnext : s.runNext t pc inp = some (op, x)) (hs : op.Silent) : s.Passes t inp x := by
  unfold runNext at hnext
  split at hnext
  · split_ifs at hnext
    cases hnext
    constructor <;> simp [hx, Ctl.line]
  split at hnext <;> split at hnext
  all_goals try first
    | unfold schedNext at hnext; split at hnext
    | unfold userNext at hnext; split at hnext
    | rename_i caller _; cases caller <;> unfold critNext at hnext <;> split at hnext
    | unfold exitNext at hnext; split at hnext
    | unfold procNext at hnext; split at hnext
  all_goals try split_ifs at hnext
  all_goals cases hnext
  all_goals try cases hs
  all_goals constructor <;> simp_all [Ctl.line, Caller.pc, WakeCont.pc, SleepCont.pc, Pc.fresh,
    Pc.built, Pc.closed, Pc.killArg]

theorem next_passes [DecidableEq M] [DecidableEq K] (h : Core s)
    (hnext : s.next c t inp = some (op, x)) (hs : op.Silent) : s.Passes t inp x := by
  have hrest := h.rest t
  have hcont : ∀ cont : WakeCont M, (cont.pc : Pc n M).Plain := fun cont => by cases cont <;> trivial
  unfold next at hnext
  split at hnext
  · next pc hx => exact runNext_passes hx hnext hs
  · next w cont ok hx =>
    split at hnext
    · cases hnext
      exact .of_line (by rw [hx]; rfl) fun pc hpc => (by cases hpc)
    · cases hnext
      refine .of_line (by rw [hx]; rfl) fun pc hpc => ?_
      cases hpc
      exact hcont cont
  · next pc cont p ok hx =>
    cases pc <;> cases hnext
    case relock =>
      refine .of_line (by rw [hx]; rfl) fun pc hpc => ?_
      cases hpc
      cases cont <;> trivial
    all_goals exact .of_line (by rw [hx]; rfl) fun pc hpc => (by cases hpc)
  · next pc back p ok hx =>
    rw [hx] at hrest
    cases pc <;> cases hnext
    case resumed =>
      refine .of_line (by rw [hx]; rfl) fun pc hpc => ?_
      cases hpc
      exact Pc.plain_of_holds hrest
    all_goals exact .of_line (by rw [hx]; rfl) fun pc hpc => (by cases hpc)
  · next m w back ok hx =>
    cases hnext
    exact .of_line (by rw [hx]; rfl) fun pc hpc => (by cases hpc)
  · next m back ok hx =>
    cases hnext
    exact .of_line (by rw [hx]) fun pc hpc => (by cases hpc)
  · next m back k hx =>
    cases hnext
    exact .of_line (by rw [hx]; rfl) fun pc hpc => (by cases hpc)
  · next m back hx =>
    rw [hx] at hrest
    cases hnext
    refine .of_line (by rw [hx]; rfl) fun pc hpc => ?_
    cases hpc
    exact Pc.plain_of_holds hrest
  · cases hnext

/-- Nothing is left in a slot of the process before, apart from its pid. -/
structure Blank (s : Kernel n C M K) (i : Fin n) : Prop where
  killed : (s.slot i).killed = false
  xstate : (s.slot i).xstate = 0
  chan : (s.slot i).chan = none
  pagetable : (s.slot i).pagetable = false
  trapframe : (s.slot i).trapframe = false
  parent : s.parent i = none
  ofile : s.ofile i = fun _ => false

/-- What holds of the slots, as long as there is no `kill` with the argument 0. -/
structure Tidy (s : Kernel n C M K) : Prop where
  unused : ∀ i, (s.slot i).state = .UNUSED → s.Blank i
  pid : ∀ i, (s.slot i).state = .UNUSED →
    (s.slot i).pid = 0 ∨ ∃ p, s.ctl (.proc p) = .run (.setUsed i)
  fresh : ∀ t i, (s.ctl t).line.fresh = some i → s.parent i = none ∧ s.ofile i = fun _ => false
  built : ∀ t i, (s.ctl t).line.built = some i → s.ctl (.proc i) = .run .forkret
  zombie : ∀ i, (s.slot i).state = .ZOMBIE → s.ofile i = fun _ => false
  closed : ∀ p fd, (s.slot p).state ≠ .UNUSED → (s.slot p).state ≠ .USED →
    fd.val < (s.ctl (.proc p)).line.closed → s.ofile p fd = false
  killArg : ∀ t a, (s.ctl t).line.killArg = some a → a ≠ 0
  mark : ∀ t a j, s.ctl t = .run (.killMark a j) →
    (s.slot j).pid = a ∧ (s.slot j).state ≠ .UNUSED
  marked : ∀ t a j, s.ctl t = .run (.killRouse a j) ∨ s.ctl t = .run (.killUnlock a j) →
    (s.slot j).pid = a ∧ (s.slot j).state ≠ .UNUSED ∧ (s.slot j).killed = true
  adopt : ∀ t status j, s.ctl t = .run (.adopt status j) → ∃ p, t = .proc p ∧ s.parent j = some p

section Line

omit [NeZero n]

theorem line_expects {e : Fin n × ProcState} (h : e ∈ x.line.expects) : e ∈ x.expects := by
  cases x with
  | run | yield => exact h
  | wake _ cont | sleep _ cont => cases cont <;> cases h
  | intr m w back =>
    cases w with
    | none => exact h
    | some w => exact List.mem_append_right _ h

theorem fresh_expects {i : Fin n} (h : x.line.fresh = some i) : (i, .USED) ∈ x.expects := by
  apply line_expects
  cases hpc : x.line <;> rw [hpc] at h <;> cases h <;> simp [Pc.expects]

theorem built_expects {i : Fin n} (h : x.line.built = some i) : (i, .USED) ∈ x.expects := by
  apply line_expects
  cases hpc : x.line <;> rw [hpc] at h <;> cases h <;> simp [Pc.expects]

end Line

theorem Writes.line (hw : s.Writes t op x) :
    (∀ i, x.line.fresh = some i → (s.ctl t).line.fresh = some i ∨ ∃ creator, op = .used i creator) ∧
      (∀ i, x.line.built = some i → (s.ctl t).line.built = some i ∨ op = .context i) ∧
      ∀ a, x.line.killArg = some a → (s.ctl t).line.killArg = some a := by
  cases hw <;> rename_i line <;>
    simp [line, Ctl.line, Pc.fresh, Pc.built, Pc.killArg, WakeCont.pc, eq_comm]

omit [NeZero n] in
theorem not_parked_of_run (hx : s.ctl t = .run pc) (hf : pc ≠ .forkret)
    (he : pc ≠ .exited) : ¬ (s.ctl t).Parked := by
  rw [hx]
  intro h
  cases h with
  | forkret => exact hf rfl
  | exited => exact he rfl

theorem not_silent_of_setUsed [DecidableEq M] [DecidableEq K] {i : Fin n}
    (hnext : s.next c t inp = some (op, x)) (hx : s.ctl t = .run (.setUsed i)) : ¬ op.Silent := by
  have hrun : s.runNext t (.setUsed i) inp = some (op, x) := by
    unfold next at hnext
    rw [hx] at hnext
    exact hnext
  cases t with
  | cpu c' => cases inp <;> simp [runNext, schedNext, Pc.holds] at hrun
  | proc p =>
    cases inp <;> simp [runNext, procNext, Pc.holds] at hrun
    rw [← hrun.1]
    exact id

section Tidy

variable [DecidableEq C] [DecidableEq M] [DecidableEq K] {u : Thread n C}

section

omit [NeZero n] [DecidableEq C] [DecidableEq M] [DecidableEq K]

theorem Core.current_thread (h : Core s) (hp : ¬ (s.ctl t).Parked)
    (hb : ∀ p, s.ctl t ≠ .run (.schedBack p)) : ∃ c, s.cur c = t := by
  cases t with
  | proc p => exact h.current hp
  | cpu c =>
    cases hr : s.running c with
    | none => exact ⟨c, cur_of_none hr⟩
    | some p => exact absurd (h.stack c p hr).2 (hb p)

theorem Core.line_inj (h : Core s) {c' : C} (hcur : s.cur c = t) (hu : s.cur c' = u) {ℓ : Lock n M}
    (ht : ℓ ∈ (s.ctl t).holds t) (hmem : ℓ ∈ (s.ctl u).holds u) : u = t := by
  rw [← hu, ← hcur, h.held_inj ((mem_held hu).mpr hmem) ((mem_held hcur).mpr ht)]

theorem Blank.congr {i : Fin n} (hb : s.Blank i) (hslot : s'.slot i = s.slot i)
    (hparent : s'.parent i = s.parent i) (hofile : s'.ofile i = s.ofile i) : s'.Blank i := by
  refine ⟨?_, ?_, ?_, ?_, ?_, hparent.trans hb.parent, hofile.trans hb.ofile⟩
  all_goals rw [hslot]
  · exact hb.killed
  · exact hb.xstate
  · exact hb.chan
  · exact hb.pagetable
  · exact hb.trapframe

theorem Core.ne_of_used (h : Core s) (hcur : s.cur c = t) {i : Fin n}
    (hu : (i, .USED) ∈ (s.ctl u).expects) : Thread.proc i ≠ t := by
  rintro rfl
  have hown := h.own_state hcur
  rw [h.expects u _ hu] at hown
  unfold Ctl.ownState at hown
  split at hown <;> cases hown

end

omit [NeZero n] [DecidableEq M] [DecidableEq K] in
theorem Tidy.silent (h : Core s) (ht : s.Tidy) (hcur : s.cur c = t) (hp : s.Passes t inp x)
    (hused : ∀ i, s.ctl t ≠ .run (.setUsed i)) (hinp : inp ≠ .kill 0) (hslot : s'.slot = s.slot)
    (hparent : s'.parent = s.parent) (hofile : s'.ofile = s.ofile) (hself : s'.ctl t = x)
    (hne : ∀ u, u ≠ t → s'.ctl u = s.ctl u) : s'.Tidy where
  unused i hi := by
    rw [hslot] at hi
    exact (ht.unused i hi).congr (congrFun hslot i) (congrFun hparent i) (congrFun hofile i)
  pid i hi := by
    rw [hslot] at hi ⊢
    rcases ht.pid i hi with h0 | ⟨p, hp⟩
    · exact .inl h0
    · refine .inr ⟨p, ?_⟩
      rw [hne _ fun heq => hused i (heq ▸ hp), hp]
  fresh u i hu := by
    rw [hparent, hofile]
    by_cases heq : u = t
    · rw [heq, hself] at hu
      exact ht.fresh t i (hp.fresh i hu)
    · rw [hne u heq] at hu
      exact ht.fresh u i hu
  built u i hu := by
    obtain ⟨v, hv⟩ : ∃ v, (s.ctl v).line.built = some i := by
      by_cases heq : u = t
      · rw [heq, hself] at hu
        exact ⟨t, hp.built i hu⟩
      · rw [hne u heq] at hu
        exact ⟨u, hu⟩
    rw [hne _ (h.ne_of_used hcur (built_expects hv))]
    exact ht.built v i hv
  zombie i hi := by
    rw [hslot] at hi
    rw [hofile]
    exact ht.zombie i hi
  closed p fd h1 h2 hfd := by
    rw [hslot] at h1 h2
    rw [hofile]
    refine ht.closed p fd h1 h2 ?_
    by_cases heq : Thread.proc p = t
    · rw [heq, hself] at hfd
      rw [heq]
      exact hfd.trans_le hp.closed
    · rwa [hne _ heq] at hfd
  killArg u a hu := by
    by_cases heq : u = t
    · rw [heq, hself] at hu
      rcases hp.killArg a hu with ha | rfl
      · exact ht.killArg t a ha
      · exact fun h0 => hinp (by rw [h0])
    · rw [hne u heq] at hu
      exact ht.killArg u a hu
  mark u a j hu := by
    rw [hslot]
    by_cases heq : u = t
    · rw [heq, hself] at hu
      obtain ⟨hline, hpid⟩ := hp.mark a j hu
      refine ⟨hpid, fun hstate => ?_⟩
      have ha : a ≠ 0 := ht.killArg t a (by rw [hline]; rfl)
      rcases ht.pid j hstate with h0 | ⟨p, hp⟩
      · exact ha (hpid.symm.trans h0)
      · obtain ⟨c', hc'⟩ := h.current (not_parked_of_run hp (by simp) (by simp))
        have heq := h.line_inj hcur hc' (ℓ := .proc j) (by rw [hline]; exact .head _)
          (by rw [hp]; exact .head _)
        rw [heq, hline] at hp
        cases hp
    · rw [hne u heq] at hu
      exact ht.mark u a j hu
  marked u a j hu := by
    rw [hslot]
    by_cases heq : u = t
    · rw [heq, hself] at hu
      rcases hu with hu | hu
      · exact absurd hu (hp.rouse a j)
      · exact ht.marked t a j (.inl (hp.unlock a j hu))
    · rw [hne u heq] at hu
      exact ht.marked u a j hu
  adopt u status j hu := by
    rw [hparent]
    by_cases heq : u = t
    · rw [heq, hself] at hu
      rw [heq]
      exact (hp.adopt status j hu).2
    · rw [hne u heq] at hu
      exact ht.adopt u status j hu

variable {a : Int}

section Writes

variable (h : Core s) (ht : s.Tidy) (hcur : s.cur c = t) (hw : s.Writes t op x)
include h ht hcur hw

omit [DecidableEq C] [DecidableEq M] [DecidableEq K] in
/-- Nothing but the pid is written to an UNUSED slot before it is USED. -/
theorem Writes.live {i : Fin n}
    (hi : op.target = some i ∨ (∃ f, op = .files i f) ∨ ∃ q, op = .parent i q) :
    (s.slot i).state ≠ .UNUSED ∨ (∃ pid, op = .pid i pid) ∨ ∃ creator, op = .used i creator := by
  have hown : ∀ {p : Fin n}, t = .proc p → (s.slot p).state ≠ .UNUSED := by
    rintro p rfl
    rw [h.own_state hcur]
    exact ownState_ne_unused _
  have hline : ∀ {e : Fin n × ProcState}, e ∈ (s.ctl t).expects → e.2 ≠ .UNUSED →
      (s.slot e.1).state ≠ .UNUSED := by
    intro e he hne
    rw [h.expects t e he]
    exact hne
  rcases hi with hi | ⟨f, rfl⟩ | ⟨q, rfl⟩
  · cases hw <;> cases hi <;> rename_i line <;>
      first
      | exact .inr (.inl ⟨_, rfl⟩)
      | exact .inr (.inr ⟨_, rfl⟩)
      | exact .inl (hown rfl)
      | exact .inl (ht.mark _ _ _ line).2
      | exact .inl (ht.marked _ _ _ (.inl line)).2.1
      | exact .inl (hline (e := (_, _)) (by rw [line]; exact .head _) (by simp))
  · cases hw with
    | filedup line => exact .inl (hline (e := (_, _)) (by rw [line]; exact .head _) (by simp))
    | files | close => exact .inl (hown rfl)
  cases hw with
  | setParent line => exact .inl (hline (e := (_, _)) (by rw [line]; exact .head _) (by simp))
  | adopt line =>
    refine .inl fun hstate => ?_
    obtain ⟨p, -, hp⟩ := ht.adopt _ _ _ line
    rw [(ht.unused _ hstate).parent] at hp
    cases hp

omit [DecidableEq K]

variable (hexec : s.exec c op = some s')
include hexec

theorem Tidy.unused_writes {i : Fin n} (hi : (s'.slot i).state = .UNUSED) : s'.Blank i := by
  by_cases htouch : op.target = some i ∨ (∃ f, op = .files i f) ∨ ∃ q, op = .parent i q
  · rcases hw.live h ht hcur htouch with hlive | ⟨pid, rfl⟩ | ⟨creator, rfl⟩
    · have heff := exec_state hexec (p := i) (by rw [hi]; exact hlive.symm)
      rw [hi] at heff
      cases hw <;> cases heff <;> cases hexec <;> rename_i line
      · refine ⟨?_, ?_, ?_, ?_, ?_, ?_, (ht.fresh _ i (by rw [line]; rfl)).2⟩
        all_goals simp [freeproc, write_self, Slot.free]
      · refine ⟨?_, ?_, ?_, ?_, ?_, ?_, ht.zombie i (h.state_of_line line (.head _))⟩
        all_goals simp [freeproc, write_self, Slot.free]
    · cases hexec
      rw [write_self] at hi
      have hb := ht.unused i hi
      refine ⟨?_, ?_, ?_, ?_, ?_, hb.parent, hb.ofile⟩
      all_goals rw [write_self]
      · exact hb.killed
      · exact hb.xstate
      · exact hb.chan
      · exact hb.pagetable
      · exact hb.trapframe
    · cases hexec
      simp [write_self] at hi
  · push Not at htouch
    have hslot := exec_slot hexec htouch.1
    rw [hslot] at hi
    have hb := ht.unused i hi
    refine hb.congr hslot (exec_parent hexec htouch.2.2 ?_ ?_) (exec_ofile hexec htouch.2.1)
    · rintro rfl
      exact htouch.1 rfl
    · rintro w rfl
      exact htouch.1 rfl

omit ht in
theorem Writes.ctl_other (hu : u ≠ t) :
    (s'.setCtl t x).ctl u = s.ctl u ∨ (∃ k, op = .context k ∧ u = .proc k) ∧
      (s'.setCtl t x).ctl u = .run .forkret ∧ (s.ctl u).Parked := by
  rw [setCtl_ne s' hu]
  by_cases hk : ∃ k, op = .context k ∧ u = .proc k
  · obtain ⟨k, rfl, rfl⟩ := hk
    refine .inr ⟨⟨k, rfl, rfl⟩, ?_, ?_⟩
    · cases hexec
      exact setCtl_self ..
    have hused : (k, .USED) ∈ (s.ctl t).expects := by
      cases hw with
      | context line =>
        rw [line]
        exact .head _
    by_contra hp
    obtain ⟨c', hc'⟩ := h.current hp
    exact h.ne_of_used hc' hused rfl
  · push Not at hk
    exact .inl (exec_ctl hexec hk)

theorem Tidy.pid_writes {i : Fin n} (hi : (s'.slot i).state = .UNUSED) :
    (s'.slot i).pid = 0 ∨ ∃ p, (s'.setCtl t x).ctl (.proc p) = .run (.setUsed i) := by
  by_cases htarget : op.target = some i
  · rcases hw.live h ht hcur (.inl htarget) with hlive | ⟨pid, rfl⟩ | ⟨creator, rfl⟩
    · have heff := exec_state hexec (p := i) (by rw [hi]; exact hlive.symm)
      rw [hi] at heff
      cases hw <;> cases heff <;> cases hexec
      all_goals simp [freeproc, write_self, Slot.free]
    · cases hw with
      | pid line => exact .inr ⟨_, setCtl_self ..⟩
    · cases hexec
      simp [write_self] at hi
  rw [exec_slot hexec htarget] at hi ⊢
  rcases ht.pid i hi with h0 | ⟨p, hp⟩
  · exact .inl h0
  refine .inr ⟨p, ?_⟩
  have hne : Thread.proc p ≠ t := by
    rintro rfl
    cases hw <;> rename_i line <;> rw [line] at hp <;> cases hp
    exact htarget rfl
  rcases hw.ctl_other h hcur hexec hne with hsame | ⟨-, -, hparked⟩
  · rw [hsame, hp]
  · exact absurd hparked (not_parked_of_run hp (by simp) (by simp))

theorem Tidy.fresh_writes {i : Fin n} (hu : ((s'.setCtl t x).ctl u).line.fresh = some i) :
    s'.parent i = none ∧ s'.ofile i = fun _ => false := by
  have hkeep : ∀ {v : Thread n C}, (s.ctl v).line.fresh = some i →
      (v = t → x.line.fresh = some i) → s'.parent i = none ∧ s'.ofile i = fun _ => false := by
    intro v hv hx
    obtain ⟨hparent, hofile⟩ := ht.fresh v i hv
    have hsame : (i, .USED) ∈ (s.ctl t).expects → x.line.fresh = some i :=
      fun he => hx (h.unique v t i (fresh_expects hv) he)
    have hne := h.ne_of_used hcur (fresh_expects hv)
    refine ⟨?_, ?_⟩
    · by_cases hfree : op = .freeproc i ∨ ∃ w, op = .reap i w
      · rcases hfree with rfl | ⟨w, rfl⟩ <;> cases hexec <;> exact update_self ..
      push Not at hfree
      rw [exec_parent hexec ?_ hfree.1 hfree.2, hparent]
      rintro q rfl
      cases hw with
      | setParent line => cases hsame (by rw [line]; exact .head _)
      | adopt line =>
        obtain ⟨p, -, hp⟩ := ht.adopt _ _ _ line
        rw [hparent] at hp
        cases hp
    · rw [exec_ofile hexec ?_, hofile]
      rintro f rfl
      cases hw with
      | filedup line => cases hsame (by rw [line]; exact .head _)
      | files | close => exact hne rfl
  by_cases heq : u = t
  · rw [heq, setCtl_self] at hu
    rcases hw.line.1 i hu with hv | ⟨creator, rfl⟩
    · exact hkeep hv fun _ => hu
    · cases hw with
      | used line =>
        have hb := ht.unused i (h.state_of_line line (.head _))
        cases hexec
        exact ⟨hb.parent, hb.ofile⟩
  · rcases hw.ctl_other h hcur hexec heq with hsame | ⟨-, hsame, -⟩
    · rw [hsame] at hu
      exact hkeep hu fun hv => absurd hv heq
    · rw [hsame] at hu
      cases hu

theorem Tidy.built_writes {i : Fin n} (hu : ((s'.setCtl t x).ctl u).line.built = some i) :
    (s'.setCtl t x).ctl (.proc i) = .run .forkret := by
  have hkeep : ∀ {v : Thread n C}, (s.ctl v).line.built = some i →
      (s'.setCtl t x).ctl (.proc i) = .run .forkret := by
    intro v hv
    rcases hw.ctl_other h hcur hexec (h.ne_of_used hcur (built_expects hv)) with hsame | ⟨-, hsame, -⟩
    · rw [hsame]
      exact ht.built v i hv
    · exact hsame
  by_cases heq : u = t
  · rw [heq, setCtl_self] at hu
    rcases hw.line.2.1 i hu with hv | rfl
    · exact hkeep hv
    have hused : (i, .USED) ∈ (s.ctl t).expects := by
      cases hw with
      | context line =>
        rw [line]
        exact .head _
    rw [setCtl_ne s' (h.ne_of_used hcur hused)]
    cases hexec
    exact setCtl_self ..
  · rcases hw.ctl_other h hcur hexec heq with hsame | ⟨-, hsame, -⟩
    · rw [hsame] at hu
      exact hkeep hu
    · rw [hsame] at hu
      cases hu

theorem Tidy.zombie_writes {i : Fin n} (hi : (s'.slot i).state = .ZOMBIE) :
    s'.ofile i = fun _ => false := by
  by_cases hold : (s.slot i).state = .ZOMBIE
  · rw [exec_ofile hexec ?_, ht.zombie i hold]
    rintro f rfl
    cases hw <;> rename_i line
    · rw [h.state_of_line line (.head _)] at hold
      cases hold
    all_goals
      have hown := h.own_state hcur
      rw [hold, line] at hown
      cases hown
  have heff := exec_state hexec (p := i) (by rw [hi]; exact Ne.symm hold)
  rw [hi] at heff
  cases hw <;> cases heff
  rename_i status line
  have hown := h.own_state hcur
  rw [line] at hown
  cases hexec
  funext fd
  refine ht.closed i fd ?_ ?_ (by rw [line]; exact fd.isLt)
  all_goals
    rw [hown]
    simp [Ctl.ownState]

theorem Tidy.closed_writes {p : Fin n} {fd : Fin NOFILE} (h1 : (s'.slot p).state ≠ .UNUSED)
    (h2 : (s'.slot p).state ≠ .USED) (hfd : fd.val < ((s'.setCtl t x).ctl (.proc p)).line.closed) :
    s'.ofile p fd = false := by
  by_cases heq : Thread.proc p = t
  · have hown : ((s.slot p).state ≠ .UNUSED) ∧ (s.slot p).state ≠ .USED := by
      rw [← heq] at hcur
      rw [h.own_state hcur]
      unfold Ctl.ownState
      split <;> simp
    have hkeep := ht.closed p fd hown.1 hown.2
    rw [heq, setCtl_self] at hfd
    rw [heq] at hkeep
    cases hw <;> rename_i line <;> rw [line] at hkeep <;>
      simp only [Ctl.line, Pc.closed, WakeCont.pc] at hfd hkeep <;>
      first
      | exact absurd hfd (Nat.not_lt_zero _)
      | cases hexec; exact hkeep hfd
      | skip
    cases heq
    cases hexec
    change update s.ofile p _ p fd = false
    rw [update_self]
    by_cases hlast : fd = ⟨_, ‹_ < NOFILE›⟩
    · rw [hlast, update_self]
    · rw [update_of_ne hlast]
      exact hkeep (Nat.lt_of_le_of_ne (Nat.lt_succ_iff.mp hfd) fun hval => hlast (Fin.ext hval))
  · rcases hw.ctl_other h hcur hexec heq with hsame | ⟨-, hsame, -⟩
    · rw [hsame] at hfd
      have hstate : (s.slot p).state ≠ .UNUSED ∧ (s.slot p).state ≠ .USED := by
        by_cases hst : (s'.slot p).state = (s.slot p).state
        · rw [← hst]
          exact ⟨h1, h2⟩
        have heff := exec_state hexec hst
        generalize (s'.slot p).state = st at h1 h2 heff
        have hne : ∀ {st}, (s.slot p).state = st → st ≠ .UNUSED → st ≠ .USED →
            (s.slot p).state ≠ .UNUSED ∧ (s.slot p).state ≠ .USED := by
          intro st hst h1 h2
          rw [hst]
          exact ⟨h1, h2⟩
        cases hw with
        | used line =>
          cases heff
          exact absurd rfl h2
        | freeproc | reap =>
          cases heff
          exact absurd rfl h1
        | setRunnable line =>
          cases heff
          rw [ht.built _ p (by rw [line]; rfl)] at hfd
          cases hfd
        | killRouse sleeps line =>
          cases heff
          exact hne sleeps (by simp) (by simp)
        | wake line | wakeIntr line | pick line =>
          cases heff
          exact hne (h.state_of_line line (.head _)) (by simp) (by simp)
        | _ => first | cases heff; exact absurd rfl heq | cases heff
      rw [exec_ofile hexec ?_]
      · exact ht.closed p fd hstate.1 hstate.2 hfd
      · rintro f rfl
        cases hw with
        | filedup line => exact hstate.2 (h.state_of_line line (.head _))
        | files | close => exact heq rfl
    · rw [hsame] at hfd
      cases hfd

theorem Tidy.killArg_writes (hu : ((s'.setCtl t x).ctl u).line.killArg = some a) : a ≠ 0 := by
  by_cases heq : u = t
  · rw [heq, setCtl_self] at hu
    exact ht.killArg t a (hw.line.2.2 a hu)
  · rcases hw.ctl_other h hcur hexec heq with hsame | ⟨-, hsame, -⟩
    · rw [hsame] at hu
      exact ht.killArg u a hu
    · rw [hsame] at hu
      cases hu

omit ht in
theorem Writes.line_other (heq : u ≠ t)
    (hu : (s'.setCtl t x).ctl u = .run pc) (hf : pc ≠ .forkret) (he : pc ≠ .exited)
    (hb : ∀ p, pc ≠ .schedBack p) :
    s.ctl u = .run pc ∧ (∃ c', s.cur c' = u) ∧
      ∀ j, Lock.proc j ∈ pc.holds u → s'.slot j = s.slot j := by
  rcases hw.ctl_other h hcur hexec heq with hsame | ⟨-, hsame, -⟩
  · rw [hsame] at hu
    obtain ⟨c', hc'⟩ := h.current_thread (not_parked_of_run hu hf he) fun p hp => hb p (by
      rw [hu] at hp
      cases hp
      rfl)
    refine ⟨hu, ⟨c', hc'⟩, fun j hj => h.slot_stable hcur hw hexec hc' heq ?_⟩
    rw [hu]
    exact hj
  · rw [hsame] at hu
    cases hu
    exact absurd rfl hf

theorem Tidy.mark_writes {j : Fin n} (hu : (s'.setCtl t x).ctl u = .run (.killMark a j)) :
    (s'.slot j).pid = a ∧ (s'.slot j).state ≠ .UNUSED := by
  by_cases heq : u = t
  · rw [heq, setCtl_self] at hu
    cases hw <;> cases hu
  · obtain ⟨hline, -, hslot⟩ := hw.line_other h hcur hexec heq hu (by simp) (by simp) (by simp)
    rw [hslot j (.head _)]
    exact ht.mark u a j hline

theorem Tidy.marked_writes {j : Fin n} (hu : (s'.setCtl t x).ctl u = .run (.killRouse a j) ∨
      (s'.setCtl t x).ctl u = .run (.killUnlock a j)) :
    (s'.slot j).pid = a ∧ (s'.slot j).state ≠ .UNUSED ∧ (s'.slot j).killed = true := by
  by_cases heq : u = t
  · rw [heq, setCtl_self] at hu
    rcases hu with hu | hu
    · cases hw <;> cases hu
      rename_i line
      obtain ⟨hpid, hstate⟩ := ht.mark _ a j line
      cases hexec
      rw [write_self]
      exact ⟨hpid, hstate, rfl⟩
    cases hw <;> cases hu
    rename_i sleeps line
    obtain ⟨hpid, -, hkilled⟩ := ht.marked _ a j (.inl line)
    cases hexec
    rw [write_self]
    exact ⟨hpid, by simp, hkilled⟩
  · rcases hu with hu | hu
    all_goals
      obtain ⟨hline, -, hslot⟩ := hw.line_other h hcur hexec heq hu (by simp) (by simp) (by simp)
      rw [hslot j (.head _)]
      exact ht.marked u a j (by simp [hline])

theorem Tidy.adopt_writes {status : Int} {j : Fin n}
    (hu : (s'.setCtl t x).ctl u = .run (.adopt status j)) :
    ∃ p, u = .proc p ∧ s'.parent j = some p := by
  by_cases heq : u = t
  · rw [heq, setCtl_self] at hu
    cases hw <;> cases hu
  obtain ⟨hline, ⟨c', hc'⟩, -⟩ := hw.line_other h hcur hexec heq hu (by simp) (by simp) (by simp)
  obtain ⟨p, hp, hparent⟩ := ht.adopt u status j hline
  have hwait : Lock.wait ∉ (s.ctl t).holds t := fun hmem =>
    heq (h.line_inj hcur hc' hmem (by rw [hline]; exact .head _))
  refine ⟨p, hp, ?_⟩
  rw [exec_parent hexec ?_ ?_ ?_, hparent]
  · rintro q rfl
    cases hw with
    | setParent line | adopt line => exact hwait (by rw [line]; exact .head _)
  · rintro rfl
    cases hw with
    | freeproc line =>
      rw [(ht.fresh _ j (by rw [line]; rfl)).1] at hparent
      cases hparent
  · rintro w rfl
    cases hw with
    | reap line => exact hwait (by rw [line]; exact .tail _ (.head _))

theorem Tidy.writes : (s'.setCtl t x).Tidy where
  unused _ hi := (ht.unused_writes h hcur hw hexec hi).congr rfl rfl rfl
  pid _ hi := ht.pid_writes h hcur hw hexec hi
  fresh _ _ hu := ht.fresh_writes h hcur hw hexec hu
  built _ _ hu := ht.built_writes h hcur hw hexec hu
  zombie _ hi := ht.zombie_writes h hcur hw hexec hi
  closed _ _ h1 h2 hfd := ht.closed_writes h hcur hw hexec h1 h2 hfd
  killArg _ _ hu := ht.killArg_writes h hcur hw hexec hu
  mark _ _ _ hu := ht.mark_writes h hcur hw hexec hu
  marked _ _ _ hu := ht.marked_writes h hcur hw hexec hu
  adopt _ _ _ hu := ht.adopt_writes h hcur hw hexec hu

end Writes

theorem Tidy.step (h : Core s) (ht : s.Tidy) {l : C × Input M K} (hl : l.2 ≠ .kill 0)
    (hstep : s.Step l s') : s'.Tidy := by
  obtain ⟨op, x, s1, hnext, hexec, rfl⟩ := hstep.parts
  by_cases hs : op.Silent
  · obtain ⟨f, rfl⟩ := exec_silent hs hexec
    exact ht.silent h rfl (next_passes h hnext hs)
      (fun i hi => not_silent_of_setUsed hnext hi hs) hl rfl rfl rfl (setCtl_self ..)
      fun u hu => setCtl_ne _ hu _
  · exact ht.writes h rfl ((next_writes hnext).resolve_left hs) hexec

omit [DecidableEq C] [DecidableEq M] [DecidableEq K] in
theorem tidy_init : (init : Kernel n C M K).Tidy := by
  have hline : ∀ t : Thread n C, (∃ c, t = .cpu c ∧
      ((init : Kernel n C M K).ctl t) = .run (.schedLock 0)) ∨
      ((init : Kernel n C M K).ctl t) = .run .forkret ∨
      ((init : Kernel n C M K).ctl t) = .run .exited := by
    intro t
    cases t with
    | cpu c => exact .inl ⟨c, rfl, rfl⟩
    | proc p =>
      by_cases hp : p = initproc n
      · exact .inr (.inl (congrArg Ctl.run (if_pos hp)))
      · exact .inr (.inr (congrArg Ctl.run (if_neg hp)))
  have hslot : ∀ i, (((init : Kernel n C M K).slot i).state = .UNUSED →
      ((init : Kernel n C M K).slot i) = ⟨.UNUSED, none, false, 0, 0, false, false, 0, 0⟩) ∧
      ((init : Kernel n C M K).slot i).state ≠ .ZOMBIE := by
    intro i
    by_cases hi : i = initproc n
    · rw [show (init : Kernel n C M K).slot i = _ from if_pos hi]
      simp
    · rw [show (init : Kernel n C M K).slot i = _ from if_neg hi]
      simp
  constructor
  case unused =>
    intro i hi
    have hs := (hslot i).1 hi
    constructor <;> first | rw [hs] | rfl
  case pid =>
    intro i hi
    rw [(hslot i).1 hi]
    exact .inl rfl
  case zombie => exact fun i hi => absurd hi (hslot i).2
  case closed => exact fun p fd _ _ _ => rfl
  all_goals
    intro t
    rcases hline t with ⟨c, -, hx⟩ | hx | hx <;>
      simp [hx, Ctl.line, Pc.fresh, Pc.built, Pc.killArg]

/-- The slots are tidy in every state that a run without `kill(0)` reaches. -/
theorem tidy_run {ls : List (C × Input M K)}
    (h : Run (fun s l s' => Step s l s' ∧ l.2 ≠ .kill 0) (init : Kernel n C M K) ls s) :
    Core s ∧ s.Tidy :=
  h.invariant (fun s => Core s ∧ s.Tidy) ⟨core_init, tidy_init⟩
    fun _ _ _ hs hstep => ⟨hs.1.step hstep.1, hs.2.step hs.1 hstep.2 hstep.1⟩

omit [DecidableEq C] [DecidableEq M] [DecidableEq K] in
theorem runNext_returns (hnext : s.runNext t pc inp = some (op, .run (.user 0)))
    (hline : pc.killArg = some a) : ∃ j, pc = .killUnlock a j := by
  cases t with
  | cpu c' =>
    cases inp <;> simp only [runNext, reduceCtorEq] at hnext
    · cases pc <;> cases hline <;> cases hnext
    · split_ifs at hnext
      cases hnext
  | proc p =>
    cases pc <;> cases hline <;> cases inp <;>
      simp only [runNext, procNext, Pc.holds, reduceCtorEq, if_true, if_false] at hnext
    all_goals try split_ifs at hnext
    all_goals cases hnext
    exact ⟨_, rfl⟩

omit [DecidableEq C] in
theorem kill_returns (hnext : s.next c t inp = some (op, .run (.user 0)))
    (hline : (s.ctl t).line.killArg = some a) : ∃ j, s.ctl t = .run (.killUnlock a j) := by
  unfold next at hnext
  cases hx : s.ctl t with
  | run pc =>
    rw [hx] at hnext hline
    obtain ⟨j, rfl⟩ := runNext_returns hnext hline
    exact ⟨j, rfl⟩
  | wake _ cont | sleep _ cont =>
    rw [hx] at hline
    cases cont <;> cases hline
  | yield pc back =>
    rw [hx] at hnext hline
    cases t <;> cases inp <;> cases pc <;> cases hnext
    cases hline
  | intr m w back =>
    rw [hx] at hnext hline
    cases w <;> cases inp <;> cases hnext
    cases hline

omit [DecidableEq K] in
theorem Tidy.killed_of_used (ht : s.Tidy) (hop : op.Silent ∨ s.Writes t op x)
    (hexec : s.exec c op = some s') {i : Fin n} (hold : (s.slot i).state = .UNUSED)
    (hnew : (s'.slot i).state = .USED) : (s'.slot i).killed = false := by
  have heff := exec_state hexec (p := i) (by rw [hold, hnew]; simp)
  rw [hnew] at heff
  rcases hop with hs | hw
  · cases op with
    | skip | acquire | release => cases heff
    | _ => cases hs
  · cases hw <;> cases heff
    cases hexec
    rw [write_self]
    exact (ht.unused i hold).killed

omit [DecidableEq C] [DecidableEq M] [DecidableEq K] in
theorem Writes.not_killUnlock (hw : s.Writes t op x) (a : Int) (j : Fin n) :
    s.ctl t ≠ .run (.killUnlock a j) := by
  intro hj
  cases hw <;> rename_i line <;> rw [line] at hj <;> cases hj

/-- A slot that is UNUSED is clean, in every run without `kill(0)`: so a new process is not killed,
and `kill` returns 0 only if it has marked a process with the pid that it was given. The pid is
cleared as well whenever the lock of the slot is free. -/
theorem fresh_slot_clean {ls : List (C × Input M K)}
    (h : Run (fun s l s' => Step s l s' ∧ l.2 ≠ .kill 0) (init : Kernel n C M K) ls s) :
    (∀ i, (s.slot i).state = .UNUSED →
        s.Blank i ∧ (s.lock (.proc i) = none → (s.slot i).pid = 0)) ∧
      ∀ l s', s.Step l s' →
        (∀ i, (s.slot i).state = .UNUSED → (s'.slot i).state = .USED →
          (s'.slot i).killed = false) ∧
        ∀ a, (s.ctl (s.cur l.1)).line.killArg = some a →
          s'.ctl (s.cur l.1) = .run (.user 0) →
          ∃ j, (s'.slot j).pid = a ∧ (s'.slot j).state ≠ .UNUSED ∧ (s'.slot j).killed = true := by
  obtain ⟨hcore, htidy⟩ := tidy_run h
  refine ⟨fun i hi => ⟨htidy.unused i hi, fun hfree => ?_⟩, ?_⟩
  · rcases htidy.pid i hi with h0 | ⟨p, hp⟩
    · exact h0
    · obtain ⟨c, hc⟩ := hcore.current (not_parked_of_run hp (by simp) (by simp))
      have hmem : Lock.proc i ∈ s.held c := (mem_held hc).mpr (by rw [hp]; exact .head _)
      rw [← hcore.locks, hfree] at hmem
      cases hmem
  intro l s' hstep
  obtain ⟨op, x, s₁, hnext, hexec, rfl⟩ := hstep.parts
  refine ⟨fun i hold hnew => ?_, fun a ha hret => ?_⟩
  · exact htidy.killed_of_used (next_writes hnext) hexec hold hnew
  rw [setCtl_self] at hret
  subst hret
  obtain ⟨j, hj⟩ := kill_returns hnext ha
  obtain ⟨hpid, hstate, hkilled⟩ := htidy.marked _ a j (.inr hj)
  have hop : op.Silent := (next_writes hnext).resolve_right fun hw => hw.not_killUnlock a j hj
  obtain ⟨f, rfl⟩ := exec_silent hop hexec
  exact ⟨j, hpid, hstate, hkilled⟩

end Tidy

/-- The first process kills itself: its pid is 1, and `kill` returns 0. -/
theorem fresh_slot_clean_kill_one :
    ∃ s : Kernel 2 Unit Unit Unit, s.Blank 1 ∧ (s.slot 1).pid = 0 := by
  have hex : (Transition.exec (guarded (fun (s : Kernel 2 Unit Unit Unit)
      (l : Unit × Input Unit Unit) => s.step l.1 l.2) fun _ l => l.2.killsZero = false) init
        (List.replicate 6 ((), .go true) ++ [((), .kill 1)] ++ List.replicate 5 ((), .go true))).map
        (fun s => (s.lock (.proc 1), (s.slot 1).state)) = some (none, .UNUSED) := by
    decide +kernel
  obtain ⟨s, hs, hval⟩ := Option.map_eq_some_iff.mp hex
  have hrun := (run_of_exec_guarded hs).mono (S := fun s l s' => Step s l s' ∧ l.2 ≠ .kill 0)
    fun _ _ _ hstep => ⟨hstep.1, fun heq => by
      rw [heq] at hstep
      cases hstep.2⟩
  obtain ⟨hb, hpid⟩ := (fresh_slot_clean hrun).1 1 (congrArg Prod.snd hval)
  exact ⟨s, hb, hpid (congrArg Prod.fst hval)⟩

/-- After `kill(0)` an UNUSED slot is marked as killed, and the next `fork` takes it so. -/
theorem fresh_slot_clean_kill_zero :
    (∃ (ls : List (Unit × Input Unit Unit)) (s : Kernel 2 Unit Unit Unit), Run Step init ls s ∧
      (s.slot 1).state = .UNUSED ∧ s.lock (.proc 1) = none ∧ (s.slot 1).killed = true) ∧
      ∃ (ls : List (Unit × Input Unit Unit)) (s : Kernel 2 Unit Unit Unit), Run Step init ls s ∧
        (s.slot 1).state = .USED ∧ (s.slot 1).killed = true := by
  have hrun : ∀ ls (v : ProcState × Option Unit × Bool),
      (Transition.exec (guarded (fun (s : Kernel 2 Unit Unit Unit) (l : Unit × Input Unit Unit) =>
        s.step l.1 l.2) fun _ _ => True) init ls).map
          (fun s => ((s.slot 1).state, s.lock (.proc 1), (s.slot 1).killed)) = some v →
      ∃ s : Kernel 2 Unit Unit Unit, Run Step init ls s ∧
        ((s.slot 1).state, s.lock (.proc 1), (s.slot 1).killed) = v := by
    intro ls v hex
    obtain ⟨s, hs, hval⟩ := Option.map_eq_some_iff.mp hex
    exact ⟨s, (run_of_exec_guarded hs).mono fun _ _ _ hstep => hstep.1, hval⟩
  constructor
  · obtain ⟨s, hs, hval⟩ := hrun
      (List.replicate 6 ((), .go true) ++ [((), .kill 0)] ++ List.replicate 8 ((), .go true))
      (.UNUSED, none, true) (by decide +kernel)
    simp only [Prod.mk.injEq] at hval
    exact ⟨_, s, hs, hval⟩
  obtain ⟨s, hs, hval⟩ := hrun
    (List.replicate 6 ((), .go true) ++ [((), .kill 0)] ++ List.replicate 8 ((), .go true) ++
      [((), .fork)] ++ List.replicate 10 ((), .go true))
    (.USED, some (), true) (by decide +kernel)
  simp only [Prod.mk.injEq] at hval
  exact ⟨_, s, hs, hval.1, hval.2.2⟩

end Kernel

end Xv6.Proc
