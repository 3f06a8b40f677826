import Xv6.Framework.Transition

namespace Monitor

open Transition Function Option

/-- What a thread does next. Outside of the monitor it takes a step of its own or enters; inside it
changes the data, wakes up the threads that sleep on a channel, sleeps on a channel, which lets
others in, or leaves. Then it stands at `l`. -/
inductive Act (D L K : Type)
  | pass (l : L)
  | enter (l : L)
  | assign (d : D) (l : L)
  | wakeup (k : K) (l : L)
  | sleep (k : K) (l : L)
  | leave (l : L)

def Act.map {D L M K : Type} (f : L → M) : Act D L K → Act D M K
  | .pass l => .pass (f l)
  | .enter l => .enter (f l)
  | .assign d l => .assign d (f l)
  | .wakeup k l => .wakeup k (f l)
  | .sleep k l => .sleep k (f l)
  | .leave l => .leave (f l)

def Act.place {D L K : Type} : Act D L K → L
  | .pass l => l
  | .enter l => l
  | .assign _ l => l
  | .wakeup _ l => l
  | .sleep _ l => l
  | .leave l => l

theorem Act.place_map {D L M K : Type} (f : L → M) (a : Act D L K) :
    (a.map f).place = f a.place := by
  cases a <;> rfl

/-- The actions of a thread in the monitor. -/
def ActInside {D L K : Type} : Act D L K → Prop
  | .pass _ => False
  | .enter _ => False
  | _ => True

theorem actInside_map {D L M K : Type} {f : L → M} {a : Act D L K} :
    ActInside (a.map f) ↔ ActInside a := by
  cases a <;> exact Iff.rfl

/-- The program of the threads `T` that share the data `D` under one lock. It depends on whether the
thread has been killed, on the data, on the place `L` of the thread and on an input, such as the
arguments of a call. A device changes the data without the lock. What a thread that sleeps on a
channel waits for is `cond`. -/
structure Client (T D L K I : Type) where
  next : T → Bool → D → L → I → Option (Act D L K)
  device : D → I → Option D
  cond : T → K → D → Prop

inductive Status (K : Type)
  | awake
  | asleep (k : K)
  /-- Woken up, and about to take the lock again. -/
  | ready
  deriving DecidableEq

/-- Since the lock was taken: the channels on which somebody's condition has become true without a
wakeup so far, and those with a wakeup. -/
structure Duty (K : Type) where
  owed : Set K
  woken : Set K

structure State (T D L K : Type) where
  data : D
  lock : Option T
  loc : T → L
  status : T → Status K
  killed : T → Bool
  duty : Duty K

/-- Besides the steps of the threads: `killed` of a thread changes, a thread that sleeps is made to
run for another reason than a wakeup, the device takes a step. -/
inductive Label (T I : Type)
  | run (t : T) (i : I)
  | kill (t : T) (b : Bool)
  | rouse (t : T)
  | device (i : I)

def Duty.none {K : Type} : Duty K := ⟨∅, ∅⟩

def Status.wake {K : Type} : Status K → Status K
  | .asleep _ => .ready
  | st => st

def Status.wakeOn {K : Type} [DecidableEq K] (k : K) (st : Status K) : Status K :=
  if st = .asleep k then .ready else st

variable {T D L K I : Type} [DecidableEq T] [DecidableEq K]

def State.init (d : D) (l : L) : State T D L K :=
  ⟨d, none, fun _ => l, fun _ => .awake, fun _ => false, .none⟩

def State.goto (s : State T D L K) (t : T) (l : L) : State T D L K :=
  { s with loc := update s.loc t l }

namespace Client

variable (c : Client T D L K I)

/-- The channels on which a change of the data makes a condition true. -/
def enabled (d d' : D) : Set K := {k | ∃ t, ¬ c.cond t k d ∧ c.cond t k d'}

/-- What a thread does that holds the lock. -/
def inside (s : State T D L K) (t : T) : Act D L K → Option (State T D L K)
  | .assign d l => some { s.goto t l with
      data := d
      duty := ⟨s.duty.owed ∪ (c.enabled s.data d \ s.duty.woken), s.duty.woken⟩ }
  | .wakeup k l => some { s.goto t l with
      status := fun u => (s.status u).wakeOn k
      duty := ⟨s.duty.owed \ {k}, insert k s.duty.woken⟩ }
  | .sleep k l => some { s.goto t l with
      lock := none
      status := update s.status t (.asleep k) }
  | .leave l => some { s.goto t l with lock := none }
  | _ => none

/-- What a thread does that does not hold the lock. -/
def outside (s : State T D L K) (t : T) : Act D L K → Option (State T D L K)
  | .pass l => some (s.goto t l)
  | .enter l => if s.lock = none then some { s.goto t l with lock := some t, duty := .none } else none
  | _ => none

/-- One step; `none` if the thread has to wait. -/
def step (s : State T D L K) : Label T I → Option (State T D L K)
  | .run t i =>
      match s.status t with
      | .asleep _ => none
      | .ready =>
          if s.lock = none then
            some { s with
              lock := some t, duty := .none, status := update s.status t .awake }
          else none
      | .awake =>
          (c.next t (s.killed t) s.data (s.loc t) i).bind
            (if s.lock = some t then c.inside s t else outside s t)
  | .kill t b => some { s with killed := update s.killed t b }
  | .rouse t => some { s with status := update s.status t (s.status t).wake }
  | .device i => (c.device s.data i).map fun d => { s with data := d }

def Step (s : State T D L K) (l : Label T I) (s' : State T D L K) : Prop := c.step s l = some s'

/-- The steps one by one. -/
inductive Move : State T D L K → Label T I → State T D L K → Prop
  | pass {s : State T D L K} {t : T} {i : I} {l : L} (awake : s.status t = .awake)
      (lock : s.lock ≠ some t)
      (next : c.next t (s.killed t) s.data (s.loc t) i = some (.pass l)) :
      Move s (.run t i) (s.goto t l)
  | enter {s : State T D L K} {t : T} {i : I} {l : L} (awake : s.status t = .awake)
      (lock : s.lock = none)
      (next : c.next t (s.killed t) s.data (s.loc t) i = some (.enter l)) :
      Move s (.run t i) { s.goto t l with lock := some t, duty := .none }
  | assign {s : State T D L K} {t : T} {i : I} {d : D} {l : L} (awake : s.status t = .awake)
      (lock : s.lock = some t)
      (next : c.next t (s.killed t) s.data (s.loc t) i = some (.assign d l)) :
      Move s (.run t i) { s.goto t l with
        data := d
        duty := ⟨s.duty.owed ∪ (c.enabled s.data d \ s.duty.woken), s.duty.woken⟩ }
  | wakeup {s : State T D L K} {t : T} {i : I} {k : K} {l : L} (awake : s.status t = .awake)
      (lock : s.lock = some t)
      (next : c.next t (s.killed t) s.data (s.loc t) i = some (.wakeup k l)) :
      Move s (.run t i) { s.goto t l with
        status := fun u => (s.status u).wakeOn k
        duty := ⟨s.duty.owed \ {k}, insert k s.duty.woken⟩ }
  | sleep {s : State T D L K} {t : T} {i : I} {k : K} {l : L} (awake : s.status t = .awake)
      (lock : s.lock = some t)
      (next : c.next t (s.killed t) s.data (s.loc t) i = some (.sleep k l)) :
      Move s (.run t i) { s.goto t l with
        lock := none
        status := update s.status t (.asleep k) }
  | leave {s : State T D L K} {t : T} {i : I} {l : L} (awake : s.status t = .awake)
      (lock : s.lock = some t)
      (next : c.next t (s.killed t) s.data (s.loc t) i = some (.leave l)) :
      Move s (.run t i) { s.goto t l with lock := none }
  | resume {s : State T D L K} {t : T} {i : I} (ready : s.status t = .ready)
      (lock : s.lock = none) :
      Move s (.run t i) { s with
        lock := some t, duty := .none, status := update s.status t .awake }
  | kill {s : State T D L K} {t : T} {b : Bool} :
      Move s (.kill t b) { s with killed := update s.killed t b }
  | rouse {s : State T D L K} {t : T} :
      Move s (.rouse t) { s with status := update s.status t (s.status t).wake }
  | device {s : State T D L K} {i : I} {d : D} (next : c.device s.data i = some d) :
      Move s (.device i) { s with data := d }

variable {c} {s s' : State T D L K} {l : Label T I} {t : T}

theorem inside_move {i : I} {a : Act D L K} (awake : s.status t = .awake)
    (lock : s.lock = some t) (next : c.next t (s.killed t) s.data (s.loc t) i = some a)
    (h : c.inside s t a = some s') : c.Move s (.run t i) s' := by
  cases a with
  | pass | enter => cases h
  | assign d l =>
    cases h
    exact .assign awake lock next
  | wakeup k l =>
    cases h
    exact .wakeup awake lock next
  | sleep k l =>
    cases h
    exact .sleep awake lock next
  | leave l =>
    cases h
    exact .leave awake lock next

theorem outside_move {i : I} {a : Act D L K} (awake : s.status t = .awake)
    (lock : s.lock ≠ some t) (next : c.next t (s.killed t) s.data (s.loc t) i = some a)
    (h : outside s t a = some s') : c.Move s (.run t i) s' := by
  cases a with
  | pass l =>
    cases h
    exact .pass awake lock next
  | enter l =>
    rw [outside] at h
    split_ifs at h with hfree
    cases h
    exact .enter awake hfree next
  | assign | wakeup | sleep | leave => cases h

theorem Step.move (h : c.Step s l s') : c.Move s l s' := by
  cases l with
  | run t i =>
    rw [Step, step] at h
    cases hst : s.status t with
    | asleep k =>
      rw [hst] at h
      cases h
    | ready =>
      rw [hst] at h
      simp only at h
      split_ifs at h with hfree
      cases h
      exact .resume hst hfree
    | awake =>
      rw [hst] at h
      obtain ⟨a, hnext, h⟩ := Option.bind_eq_some_iff.mp h
      split_ifs at h with hlock
      · exact inside_move hst hlock hnext h
      · exact outside_move hst hlock hnext h
  | kill t b =>
    cases h
    exact .kill
  | rouse t =>
    cases h
    exact .rouse
  | device i =>
    obtain ⟨d, hd, rfl⟩ := Option.map_eq_some_iff.mp h
    exact .device hd

theorem Move.loc_ne (h : c.Move s l s') (hne : s'.loc t ≠ s.loc t) :
    ∃ i a, l = .run t i ∧ c.next t (s.killed t) s.data (s.loc t) i = some a ∧
      (ActInside a → s.lock = some t) ∧ s'.loc t = a.place := by
  have hgoto : ∀ {u m}, update s.loc u m t ≠ s.loc t → u = t := by
    intro u m hmoved
    by_contra hut
    exact hmoved (update_of_ne (Ne.symm hut) ..)
  cases h with
  | @pass _ i _ _ _ next | @enter _ i _ _ _ next =>
    obtain rfl := hgoto hne
    exact ⟨i, _, rfl, next, False.elim, update_self ..⟩
  | @assign _ i _ _ _ lock next | @wakeup _ i _ _ _ lock next | @sleep _ i _ _ _ lock next
  | @leave _ i _ _ lock next =>
    obtain rfl := hgoto hne
    exact ⟨i, _, rfl, next, fun _ => lock, update_self ..⟩
  | resume | kill | rouse | device => exact absurd rfl hne

/-- The data only change by an assignment, or by the device. -/
theorem Move.data_cases (h : c.Move s l s') :
    s'.data = s.data ∨
      (∃ t i m, c.next t (s.killed t) s.data (s.loc t) i = some (.assign s'.data m)) ∨
      ∃ i, c.device s.data i = some s'.data := by
  cases h with
  | pass | enter | wakeup | sleep | leave | resume | kill | rouse => exact .inl rfl
  | @assign t i d m awake lock next => exact .inr (.inl ⟨t, i, m, next⟩)
  | @device i d next => exact .inr (.inr ⟨i, next⟩)

variable {st : Status K}

omit [DecidableEq K] in
theorem wake_of_awake (h : st = .awake) : st.wake = .awake := by
  rw [h]
  rfl

variable {k : K}

theorem wakeOn_of_awake (h : st = .awake) : st.wakeOn k = .awake := by
  rw [h]
  rfl

theorem wakeOn_eq_asleep {k' : K} : st.wakeOn k = .asleep k' ↔ st = .asleep k' ∧ k' ≠ k := by
  unfold Status.wakeOn
  split_ifs with h
  · subst h
    simp [eq_comm]
  · constructor
    · rintro rfl
      exact ⟨rfl, fun hk => h (hk ▸ rfl)⟩
    · exact fun hst => hst.1

omit [DecidableEq K] in
theorem wake_ne_asleep : st.wake ≠ .asleep k := by
  cases st <;> simp [Status.wake]

section Discipline

variable (c)

/-- The discipline: a thread sleeps on a channel only while what it waits for does not hold, and in
the time in which it holds the lock there is a wakeup on every channel on which it makes a condition
true. A device makes no condition true. -/
def Disciplined (s : State T D L K) : Label T I → Prop
  | .run t i => s.lock = some t → ∀ a, c.next t (s.killed t) s.data (s.loc t) i = some a →
      match a with
      | .sleep k _ => s.duty.owed = ∅ ∧ ¬ c.cond t k s.data
      | .leave _ => s.duty.owed = ∅
      | _ => True
  | .kill _ _ => True
  | .rouse _ => True
  | .device i => ∀ d, c.device s.data i = some d → ∀ t k, c.cond t k d → c.cond t k s.data

/-- Who sleeps waits for something that does not hold, or that the thread in the monitor still has
to report. -/
structure Quiet (s : State T D L K) : Prop where
  owner : ∀ t, s.lock = some t → s.status t = .awake
  woken : s.lock ≠ none → ∀ k ∈ s.duty.woken, ∀ t, s.status t ≠ .asleep k
  waits : ∀ t k, s.status t = .asleep k →
    ¬ c.cond t k s.data ∨ s.lock ≠ none ∧ k ∈ s.duty.owed

variable {c}

section

omit [DecidableEq T] [DecidableEq K]

theorem quiet_init (d : D) (l : L) : c.Quiet (State.init d l) where
  owner t h := by cases h
  woken h := absurd rfl h
  waits t k h := by cases h

theorem Quiet.of_waits (h : c.Quiet s) (howner : ∀ t, s'.lock = some t → s'.status t = .awake)
    (hwoken : s'.lock ≠ none → ∀ k ∈ s'.duty.woken, ∀ t, s'.status t ≠ .asleep k)
    (hasleep : ∀ t k, s'.status t = .asleep k → s.status t = .asleep k)
    (hcond : ∀ t k, s'.status t = .asleep k → c.cond t k s'.data →
      c.cond t k s.data ∨ s'.lock ≠ none ∧ k ∈ s'.duty.owed)
    (howed : ∀ t k, s'.status t = .asleep k → s.lock ≠ none → k ∈ s.duty.owed →
      s'.lock ≠ none ∧ k ∈ s'.duty.owed) : c.Quiet s' where
  owner := howner
  woken := hwoken
  waits t k ht := by
    by_cases hc : c.cond t k s'.data
    · right
      rcases hcond t k ht hc with hold | hnew
      · rcases h.waits t k (hasleep t k ht) with hno | ⟨hlock, hk⟩
        · exact absurd hold hno
        · exact howed t k ht hlock hk
      · exact hnew
    · exact .inl hc

end

theorem Quiet.move (h : c.Quiet s) (hmove : c.Move s l s') (hd : c.Disciplined s l) :
    c.Quiet s' := by
  cases hmove with
  | pass awake lock next =>
    exact h.of_waits h.owner h.woken (fun _ _ => id) (fun _ _ _ => .inl)
      fun _ _ _ hlock hk => ⟨hlock, hk⟩
  | @enter t i l awake lock next =>
    refine h.of_waits ?_ ?_ (fun _ _ => id) (fun _ _ _ => .inl) ?_
    · rintro u hu
      cases hu
      exact awake
    · rintro - k hk
      cases hk
    · intro _ _ _ hlock
      exact absurd lock hlock
  | @assign t i d l awake lock next =>
    refine h.of_waits h.owner h.woken (fun _ _ => id) ?_ ?_
    · intro u k hu hcond
      by_cases hold : c.cond u k s.data
      · exact .inl hold
      · refine .inr ⟨by simp [State.goto, lock], .inr ⟨⟨u, hold, hcond⟩, fun hk => ?_⟩⟩
        exact h.woken (by simp [lock]) k hk u hu
    · exact fun _ _ _ hlock hk => ⟨hlock, .inl hk⟩
  | @wakeup t i k l awake lock next =>
    refine h.of_waits ?_ ?_ ?_ (fun _ _ _ => .inl) ?_
    · intro u hu
      exact wakeOn_of_awake (h.owner u hu)
    · intro hlock k' hk' u hu
      obtain ⟨hasleep, hne⟩ := wakeOn_eq_asleep.mp hu
      rcases hk' with rfl | hk'
      · exact hne rfl
      · exact h.woken hlock k' hk' u hasleep
    · exact fun u k' hu => (wakeOn_eq_asleep.mp hu).1
    · exact fun u k' hu hlock hk => ⟨hlock, hk, (wakeOn_eq_asleep.mp hu).2⟩
  | @sleep t i k l awake lock next =>
    obtain ⟨howed, hcond⟩ := hd lock _ next
    have hnone : ∀ k, k ∉ s.duty.owed := by simp [howed]
    refine ⟨fun u hu => (by cases hu), fun hlock => absurd rfl hlock, fun u k' hu => ?_⟩
    by_cases hut : u = t
    · rw [hut] at hu ⊢
      simp only [update_self, Status.asleep.injEq] at hu
      exact .inl (hu ▸ hcond)
    · simp only [update_of_ne hut] at hu
      rcases h.waits u k' hu with hno | ⟨-, hk⟩
      · exact .inl hno
      · exact absurd hk (hnone k')
  | @leave t i l awake lock next =>
    have howed : s.duty.owed = ∅ := hd lock _ next
    refine h.of_waits (fun u hu => by cases hu) (fun hlock => absurd rfl hlock) (fun _ _ => id)
      (fun _ _ _ => .inl) ?_
    intro _ k _ _ hk
    rw [howed] at hk
    cases hk
  | @resume t i ready lock =>
    have hasleep : ∀ u k, update s.status t .awake u = .asleep k → s.status u = .asleep k := by
      intro u k hu
      by_cases hut : u = t
      · rw [hut, update_self] at hu
        cases hu
      · rwa [update_of_ne hut] at hu
    refine h.of_waits ?_ ?_ hasleep (fun _ _ _ => .inl) ?_
    · rintro u hu
      cases hu
      exact update_self ..
    · rintro - k hk
      cases hk
    · intro _ _ _ hlock
      exact absurd lock hlock
  | kill => exact ⟨h.owner, h.woken, h.waits⟩
  | @rouse t =>
    have hasleep : ∀ u k, update s.status t (s.status t).wake u = .asleep k →
        s.status u = .asleep k := by
      intro u k hu
      by_cases hut : u = t
      · rw [hut, update_self] at hu
        exact absurd hu wake_ne_asleep
      · rwa [update_of_ne hut] at hu
    refine h.of_waits ?_ ?_ hasleep (fun _ _ _ => .inl) fun _ _ _ hlock hk => ⟨hlock, hk⟩
    · intro u hu
      by_cases hut : u = t
      · subst hut
        exact (update_self ..).trans (wake_of_awake (h.owner u hu))
      · exact (update_of_ne hut ..).trans (h.owner u hu)
    · exact fun hlock k hk u hu => h.woken hlock k hk u (hasleep u k hu)
  | @device i d next =>
    exact h.of_waits h.owner h.woken (fun _ _ => id) (fun u k _ hcond => .inl (hd d next u k hcond))
      fun _ _ _ hlock hk => ⟨hlock, hk⟩

end Discipline

variable {d : D} {l0 : L}

section Marks

variable (c) (owes : L → K → Prop)

/-- The discipline in terms of marks on the places of the program: a thread that makes a condition
true stands at a place with a mark for the channel until it has woken up who sleeps there. -/
def MarkedAct (t : T) (d : D) (l : L) : Act D L K → Prop
  | .assign d' l' => ∀ k, owes l k ∨ k ∈ c.enabled d d' → owes l' k
  | .wakeup k l' => ∀ k', k' ≠ k → owes l k' → owes l' k'
  | .sleep k _ => (∀ k', ¬ owes l k') ∧ ¬ c.cond t k d
  | .leave _ => ∀ k, ¬ owes l k
  | _ => True

def Marked (s : State T D L K) : Label T I → Prop
  | .run t i => s.lock = some t → ∀ a, c.next t (s.killed t) s.data (s.loc t) i = some a →
      c.MarkedAct owes t s.data (s.loc t) a
  | .kill _ _ => True
  | .rouse _ => True
  | .device i => ∀ d, c.device s.data i = some d → ∀ t k, c.cond t k d → c.cond t k s.data

/-- What the thread in the monitor owes is marked at its place. -/
def Covered (s : State T D L K) : Prop := ∀ t, s.lock = some t → ∀ k ∈ s.duty.owed, owes (s.loc t) k

variable {c owes}

omit [DecidableEq T] [DecidableEq K] in
theorem Marked.disciplined (h : c.Marked owes s l) (hcov : Covered owes s) : c.Disciplined s l := by
  cases l with
  | kill | rouse => trivial
  | device i => exact h
  | run t i =>
    intro hlock a ha
    have hnone : (∀ k, ¬ owes (s.loc t) k) → s.duty.owed = ∅ := fun hno =>
      Set.eq_empty_iff_forall_notMem.mpr fun k hk => hno k (hcov t hlock k hk)
    have hm := h hlock a ha
    cases a with
    | sleep k l => exact ⟨hnone hm.1, hm.2⟩
    | leave l => exact hnone hm
    | pass | enter | assign | wakeup => trivial

theorem Covered.move (hcov : Covered owes s) (hmove : c.Move s l s') (h : c.Marked owes s l) :
    Covered owes s' := by
  cases hmove with
  | @pass t i l awake lock next =>
    intro u hu k hk
    have hut : u ≠ t := fun heq => lock (heq ▸ hu)
    simp only [State.goto, update_of_ne hut]
    exact hcov u hu k hk
  | enter | resume =>
    intro u hu k hk
    cases hk
  | @assign t i d l awake lock next =>
    intro u hu k hk
    have hut : u = t := some.inj (hu.symm.trans lock)
    subst hut
    simp only [State.goto, update_self]
    rcases hk with hk | hk
    · exact h lock _ next k (.inl (hcov u lock k hk))
    · exact h lock _ next k (.inr hk.1)
  | @wakeup t i k l awake lock next =>
    intro u hu k' hk'
    have hut : u = t := some.inj (hu.symm.trans lock)
    subst hut
    simp only [State.goto, update_self]
    exact h lock _ next k' hk'.2 (hcov u lock k' hk'.1)
  | sleep | leave =>
    intro u hu
    cases hu
  | kill | rouse | device => exact hcov

/-- The rule of marks. -/
theorem no_lost_wakeup_of_marked {ls : List (Label T I)}
    (h : Run (fun s l s' => c.Step s l s' ∧ c.Marked owes s l) (State.init d l0) ls s)
    (hfree : s.lock = none) (ht : s.status t = .asleep k) : ¬ c.cond t k s.data := by
  have hq : Covered owes s ∧ c.Quiet s := by
    refine h.invariant (fun s => Covered owes s ∧ c.Quiet s)
      ⟨fun u hu => (by cases hu), quiet_init d l0⟩ ?_
    rintro s l s' ⟨hcov, hq⟩ ⟨hstep, hm⟩
    exact ⟨hcov.move hstep.move hm, hq.move hstep.move (hm.disciplined hcov)⟩
  rcases hq.2.waits t k ht with hno | ⟨hlock, -⟩
  · exact hno
  · exact absurd hfree hlock

end Marks

section Outline

/-- A proof outline: an invariant of the data, what holds of them in addition while nobody is in the
monitor, what holds of a thread wherever it stands, and what holds in addition while it is in the
monitor. -/
structure Assertions (T D L : Type) where
  inv : D → Prop
  rest : D → Prop
  stands : T → L → D → Prop
  held : T → L → D → Prop

/-- What an action has to establish. Whatever holds in the monitor is given up when a thread sleeps,
and has to follow from the rest when it is back. -/
def Assertions.After (o : Assertions T D L) (t : T) (d : D) : Act D L K → Prop
  | .pass l => o.stands t l d
  | .enter l => o.rest d → o.stands t l d ∧ o.held t l d
  | .assign d' l => o.inv d' ∧ o.stands t l d' ∧ o.held t l d' ∧
      ∀ u m, u ≠ t → o.stands u m d → o.stands u m d'
  | .wakeup _ l => o.stands t l d ∧ o.held t l d
  | .sleep _ l => o.rest d ∧ o.stands t l d ∧
      ∀ d', o.inv d' → o.rest d' → o.stands t l d' → o.held t l d'
  | .leave l => o.rest d ∧ o.stands t l d

/-- Every action keeps to the outline, for inputs of the kind `ok`. -/
structure Outline (c : Client T D L K I) (ok : I → Prop) extends Assertions T D L where
  next : ∀ {t b d l i a}, ok i → inv d → stands t l d → (ActInside a → held t l d) →
    c.next t b d l i = some a → toAssertions.After t d a
  device : ∀ {d i d'}, ok i → inv d → c.device d i = some d' →
    inv d' ∧ (rest d → rest d') ∧ (∀ t l, stands t l d → stands t l d') ∧
      ∀ t l, stands t l d → held t l d → held t l d'

/-- The inputs of a step are of the kind `ok`. -/
def LabelOk (ok : I → Prop) : Label T I → Prop
  | .run _ i => ok i
  | .kill _ _ => True
  | .rouse _ => True
  | .device i => ok i

instance (ok : I → Prop) [DecidablePred ok] : ∀ l : Label T I, Decidable (LabelOk ok l)
  | .run _ i => inferInstanceAs (Decidable (ok i))
  | .kill _ _ => inferInstanceAs (Decidable True)
  | .rouse _ => inferInstanceAs (Decidable True)
  | .device i => inferInstanceAs (Decidable (ok i))

variable {ok : I → Prop}

/-- The outline holds in a state. -/
structure Outline.Holds (o : c.Outline ok) (s : State T D L K) : Prop where
  owner : ∀ t, s.lock = some t → s.status t = .awake
  inv : o.inv s.data
  rest : s.lock = none → o.rest s.data
  stands : ∀ t, o.stands t (s.loc t) s.data
  held : ∀ t, s.lock = some t → o.held t (s.loc t) s.data
  back : ∀ t, s.status t ≠ .awake →
    ∀ d, o.inv d → o.rest d → o.stands t (s.loc t) d → o.held t (s.loc t) d

variable {o : c.Outline ok}

omit [DecidableEq K] in
theorem Outline.Holds.of_run (h : o.Holds s) {m : L} (hloc : s'.loc = update s.loc t m)
    (howner : ∀ u, s'.lock = some u → s'.status u = .awake) (hinv : o.inv s'.data)
    (hrest : s'.lock = none → o.rest s'.data) (hstands : o.stands t m s'.data)
    (hothers : ∀ u lu, u ≠ t → o.stands u lu s.data → o.stands u lu s'.data)
    (hheld : s'.lock = some t → o.held t m s'.data) (hlock : ∀ u, s'.lock = some u → u = t)
    (hstatus : ∀ u, u ≠ t → s'.status u ≠ .awake → s.status u ≠ .awake)
    (hback : s'.status t ≠ .awake → ∀ d, o.inv d → o.rest d → o.stands t m d → o.held t m d) :
    o.Holds s' where
  owner := howner
  inv := hinv
  rest := hrest
  stands u := by
    rw [hloc]
    by_cases hut : u = t
    · rw [hut, update_self]
      exact hstands
    · rw [update_of_ne hut]
      exact hothers u _ hut (h.stands u)
  held u hu := by
    have hut := hlock u hu
    subst hut
    rw [hloc, update_self]
    exact hheld hu
  back u hu := by
    rw [hloc]
    by_cases hut : u = t
    · subst hut
      rw [update_self]
      exact hback hu
    · rw [update_of_ne hut]
      exact h.back u (hstatus u hut hu)

theorem Outline.Holds.move (h : o.Holds s) (hmove : c.Move s l s') (hok : LabelOk ok l) :
    o.Holds s' := by
  cases hmove with
  | @pass t i l awake lock next =>
    have hout : ActInside (.pass l : Act D L K) → o.held t (s.loc t) s.data := False.elim
    have hnew := o.next hok h.inv (h.stands t) hout next
    refine ⟨h.owner, h.inv, h.rest, ?_, ?_, ?_⟩
    · intro u
      simp only [State.goto]
      by_cases hut : u = t
      · rw [hut, update_self]
        exact hnew
      · rw [update_of_ne hut]
        exact h.stands u
    · intro u hu
      have hut : u ≠ t := fun heq => lock (heq ▸ hu)
      simp only [State.goto, update_of_ne hut]
      exact h.held u hu
    · intro u hu
      have hut : u ≠ t := fun heq => hu (heq ▸ awake)
      simp only [State.goto, update_of_ne hut]
      exact h.back u hu
  | @enter t i l awake lock next =>
    have hout : ActInside (.enter l : Act D L K) → o.held t (s.loc t) s.data := False.elim
    obtain ⟨hstands, hheld⟩ := o.next hok h.inv (h.stands t) hout next (h.rest lock)
    refine h.of_run rfl ?_ h.inv (fun hu => by cases hu) hstands (fun _ _ _ => id) (fun _ => hheld)
      ?_ (fun _ _ => id) fun hst => absurd awake hst
    · rintro u hu
      cases hu
      exact awake
    · rintro u hu
      cases hu
      rfl
  | @assign t i d l awake lock next =>
    obtain ⟨hinv, hstands, hheld, hothers⟩ :=
      o.next hok h.inv (h.stands t) (fun _ => h.held t lock) next
    have hbusy : s.lock ≠ none := by simp [lock]
    exact h.of_run rfl h.owner hinv (fun hfree => absurd hfree hbusy) hstands hothers
      (fun _ => hheld) (fun u hu => some.inj (hu.symm.trans lock)) (fun _ _ => id)
      fun hst => absurd awake hst
  | @wakeup t i k l awake lock next =>
    obtain ⟨hstands, hheld⟩ := o.next hok h.inv (h.stands t) (fun _ => h.held t lock) next
    refine h.of_run rfl (fun u hu => wakeOn_of_awake (h.owner u hu)) h.inv h.rest hstands
      (fun _ _ _ => id) (fun _ => hheld) (fun u hu => some.inj (hu.symm.trans lock)) ?_ ?_
    · exact fun u _ hu hst => hu (wakeOn_of_awake hst)
    · exact fun hst => absurd (wakeOn_of_awake awake) hst
  | @sleep t i k l awake lock next =>
    obtain ⟨hrest, hstands, hback⟩ := o.next hok h.inv (h.stands t) (fun _ => h.held t lock) next
    refine h.of_run rfl (fun u hu => by cases hu) h.inv (fun _ => hrest) hstands (fun _ _ _ => id)
      (fun hu => by cases hu) (fun u hu => by cases hu) ?_ fun _ => hback
    intro u hut hu
    simpa only [update_of_ne hut] using hu
  | @leave t i l awake lock next =>
    obtain ⟨hrest, hstands⟩ := o.next hok h.inv (h.stands t) (fun _ => h.held t lock) next
    exact h.of_run rfl (fun u hu => by cases hu) h.inv (fun _ => hrest) hstands (fun _ _ _ => id)
      (fun hu => by cases hu) (fun u hu => by cases hu) (fun _ _ => id)
      fun hst => absurd awake hst
  | @resume t i ready lock =>
    refine h.of_run (m := s.loc t) (update_eq_self t s.loc).symm ?_ h.inv
      (fun hu => by cases hu) (h.stands t) (fun _ _ _ => id) (fun _ => ?_) ?_ ?_ ?_
    · rintro u hu
      cases hu
      exact update_self ..
    · exact h.back t (by rw [ready]; exact fun h => by cases h) _ h.inv (h.rest lock) (h.stands t)
    · rintro u hu
      cases hu
      rfl
    · intro u hut hu
      simpa only [update_of_ne hut] using hu
    · exact fun hst => absurd (update_self ..) hst
  | kill => exact ⟨h.owner, h.inv, h.rest, h.stands, h.held, h.back⟩
  | @rouse t =>
    have hawake : ∀ u, s.status u = .awake → update s.status t (s.status t).wake u = .awake := by
      intro u hu
      by_cases hut : u = t
      · subst hut
        exact (update_self ..).trans (wake_of_awake hu)
      · exact (update_of_ne hut ..).trans hu
    exact ⟨fun u hu => hawake u (h.owner u hu), h.inv, h.rest, h.stands, h.held,
      fun u hu => h.back u fun hst => hu (hawake u hst)⟩
  | @device i d next =>
    obtain ⟨hinv, hrest, hstands, hheld⟩ := o.device hok h.inv next
    exact ⟨h.owner, hinv, fun hfree => hrest (h.rest hfree), fun t => hstands _ _ (h.stands t),
      fun t ht => hheld _ _ (h.stands t) (h.held t ht), h.back⟩

omit [DecidableEq T] [DecidableEq K] in
theorem Outline.Holds.init (hinv : o.inv d) (hrest : o.rest d)
    (hstands : ∀ t, o.stands t l0 d) : o.Holds (State.init d l0) where
  owner t ht := by cases ht
  inv := hinv
  rest _ := hrest
  stands := hstands
  held t ht := by cases ht
  back t ht := absurd rfl ht

/-- An outline that holds at the start holds after every run. -/
theorem Outline.run (o : c.Outline ok) {ls : List (Label T I)}
    (h : Run (fun s l s' => c.Step s l s' ∧ LabelOk ok l) (State.init d l0) ls s)
    (hinv : o.inv d) (hrest : o.rest d) (hstands : ∀ t, o.stands t l0 d) : o.Holds s := by
  refine h.invariant o.Holds (.init hinv hrest hstands) ?_
  rintro s l s' hs ⟨hstep, hl⟩
  exact hs.move hstep.move hl

end Outline

end Client

end Monitor
