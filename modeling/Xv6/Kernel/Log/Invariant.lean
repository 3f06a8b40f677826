import Xv6.Kernel.Log.Machine

namespace Xv6.Log

open Transition Function List LogState

variable {P : Type} [DecidableEq P]

/-- 1 between `begin_op` and `end_op`, else 0. -/
def Pc.opCount : Pc → Nat
  | .inOp _ => 1
  | _ => 0

def Pc.isInOp : Pc → Bool
  | .inOp _ => true
  | _ => false

/-- Neither inside an operation nor inside `commit`. -/
def Pc.Resting (c : Pc) : Prop := c = .outside ∨ c = .entering ∨ c = .asleep

theorem Pc.Resting.opCount {c : Pc} (h : c.Resting) : c.opCount = 0 := by
  rcases h with rfl | rfl | rfl <;> rfl

variable {t : LogState P} {size : Nat}

/-- All that a step can do. -/
theorem step_cases {s : LogState P} {l : Label P} (hs : Step size s l t) :
    (∃ p, l = .callBegin p ∧ s.pc p = .outside ∧ t = s.setPc p .entering) ∨
    (∃ p, l = .beginOp p ∧ s.pc p = .entering ∧ t = beginOp s p) ∨
    (∃ p, l = .wake p ∧ s.pc p = .asleep ∧ t = s.setPc p .entering) ∨
    (∃ p b w, l = .logWrite p b ∧ s.pc p = .inOp w ∧ logWrite size s p b w = .ok t) ∨
    (∃ p w, l = .endOp p ∧ s.pc p = .inOp w ∧ endOp s p w = .ok t) ∨
    (∃ p c, l = .commitStep p ∧ s.pc p = .commit c ∧ commitStep s p c = some t) ∨
    (∃ p, l = .endCommit p ∧ s.pc p = .commit .done ∧ t = endCommit s p) := by
  unfold Step at hs
  cases l with
  | callBegin p | beginOp p | wake p | endCommit p =>
    simp only [step] at hs
    split_ifs at hs with hp
    cases hs
    simp [hp]
  | logWrite p | endOp p | commitStep p =>
    simp only [step] at hs
    cases hp : s.pc p <;> simp_all

section

omit [DecidableEq P]

variable (pc : P → Pc) (q : P)

theorem wakeup_inOp (w : List Nat) : wakeup pc q = .inOp w ↔ pc q = .inOp w := by
  unfold wakeup
  split_ifs with h <;> simp [h]

theorem wakeup_commit (c : Stage) : wakeup pc q = .commit c ↔ pc q = .commit c := by
  unfold wakeup
  split_ifs with h <;> simp [h]

theorem wakeup_not_asleep : wakeup pc q ≠ .asleep := by
  unfold wakeup
  split_ifs with h
  · simp
  · exact h

theorem wakeup_opCount : (wakeup pc q).opCount = (pc q).opCount := by
  unfold wakeup
  split_ifs with h <;> simp [h, Pc.opCount]

end

theorem mem_absorb (lh : List Nat) (b c : Nat) : c ∈ absorb lh b ↔ c ∈ lh ∨ c = b := by
  unfold absorb
  split_ifs with h
  · constructor
    · exact Or.inl
    · rintro (hc | rfl)
      · exact hc
      · exact h
  · simp

theorem absorb_nodup (lh : List Nat) (b : Nat) (h : lh.Nodup) : (absorb lh b).Nodup := by
  unfold absorb
  split_ifs with hb
  · exact h
  · simp [nodup_append, h]
    rintro a ha rfl
    exact hb ha

theorem absorb_length (lh : List Nat) (b : Nat) :
    lh.length ≤ (absorb lh b).length ∧ (absorb lh b).length ≤ lh.length + 1 := by
  unfold absorb
  split_ifs <;> simp

theorem NoSpace.mono {n m : Nat} {o o' : Int} (h : NoSpace n o) (hn : n ≤ m) (ho : o ≤ o') :
    NoSpace m o' := by
  unfold NoSpace at *
  simp only [LOGSIZE, MAXOPBLOCKS] at *
  omega

/-- What holds whenever `log.lock` is free. -/
structure Inv [Fintype P] (s : LogState P) : Prop where
  count : s.outstanding = (∑ p, (s.pc p).opCount : Nat)
  committer : s.committing = true ↔ ∃ p c, s.pc p = .commit c
  unique : ∀ p q c d, s.pc p = .commit c → s.pc q = .commit d → p = q
  quiet : s.committing = true → s.outstanding = 0
  idle : s.committing = false → s.outstanding = 0 → s.lh = [] ∧ s.ops = []
  erased : ∀ p c, s.pc p = .commit c → (c = .eraseHead ∨ c = .done) → s.lh = [] ∧ s.ops = []
  blocks : ∀ b, b ∈ s.lh ↔ (∃ op ∈ s.ops, b ∈ op) ∨ ∃ p w, s.pc p = .inOp w ∧ b ∈ w
  nodup : s.lh.Nodup
  waiting : ∀ p, s.pc p = .asleep → s.committing = true ∨ NoSpace s.lh.length s.outstanding

section

variable [Fintype P] {s : LogState P} {p : P}

theorem count_setPc (s : LogState P) (p : P) (c : Pc) :
    (∑ q, ((s.setPc p c).pc q).opCount) + (s.pc p).opCount = (∑ q, (s.pc q).opCount) + c.opCount :=
  Counting.sum_update Pc.opCount s.pc p c

omit [DecidableEq P] in
theorem init_inv : Inv (LogState.init P) := by
  constructor <;> simp [LogState.init, Pc.opCount]

omit [DecidableEq P] in
theorem Inv.no_op (h : Inv s) (hc : s.outstanding = 0) (q : P) (w : List Nat) :
    s.pc q ≠ .inOp w := by
  intro hq
  have h1 := Counting.le_sum (fun q => (s.pc q).opCount) q
  have h2 := h.count
  simp only [hq, Pc.opCount] at h1 h2
  omega

theorem Inv.rest (h : Inv s) (c : Pc) (hp : (s.pc p).Resting) (hc : c.Resting)
    (hw : c = .asleep → s.committing = true ∨ NoSpace s.lh.length s.outstanding) :
    Inv (s.setPc p c) := by
  have hcount := count_setPc s p c
  rw [hp.opCount, hc.opCount, Nat.add_zero, Nat.add_zero] at hcount
  obtain ⟨h1, h2, h3, h4, h5, h6, h7, h8, h9⟩ := h
  unfold Pc.Resting at hp hc
  refine ⟨hcount ▸ h1, ?_, ?_, h4, h5, ?_, ?_, h8, ?_⟩
  all_goals
    simp only [setPc, update_apply]
    grind

theorem beginOp_inv (h : Inv s) (hp : s.pc p = .entering) : Inv (beginOp s p) := by
  have hr : (s.pc p).Resting := Or.inr (Or.inl hp)
  unfold beginOp
  split_ifs with hcom hsp
  · exact h.rest .asleep hr (Or.inr (Or.inr rfl)) (fun _ => Or.inl hcom)
  · exact h.rest .asleep hr (Or.inr (Or.inr rfl)) (fun _ => Or.inr hsp)
  have hcount := count_setPc s p (.inOp [])
  rw [hp] at hcount
  have hout : 0 ≤ s.outstanding := h.count ▸ Int.natCast_nonneg _
  obtain ⟨h1, h2, h3, h4, h5, h6, h7, h8, h9⟩ := h
  refine ⟨?_, ?_, ?_, fun hc => absurd hc hcom, ?_, ?_, ?_, h8, ?_⟩
  · change s.outstanding + 1 = (∑ q, ((s.setPc p (.inOp [])).pc q).opCount : Nat)
    simp only [Pc.opCount] at hcount h1 ⊢
    omega
  · simp only [setPc, update_apply]
    grind
  · simp only [setPc, update_apply]
    grind
  · intro _ h0
    change s.outstanding + 1 = 0 at h0
    omega
  · simp only [setPc, update_apply]
    grind
  · simp only [setPc, update_apply]
    grind
  · -- a waiter's condition only gets stronger when another operation is admitted
    simp only [setPc, update_apply]
    grind [NoSpace.mono]

variable {w : List Nat}

section

variable (h : Inv s) (hp : s.pc p = .inOp w)
include h hp

omit [DecidableEq P] in
theorem Inv.positive : 0 < s.outstanding := by
  have h1 := Counting.le_sum (fun q => (s.pc q).opCount) p
  have h2 := h.count
  simp only [hp, Pc.opCount] at h1 h2
  omega

omit [DecidableEq P] in
theorem Inv.not_committing : s.committing = false := by
  have hpos := h.positive hp
  cases hc : s.committing with
  | false => rfl
  | true =>
    have := h.quiet hc
    omega

theorem logWrite_inv {b : Nat} (ht : logWrite size s p b w = .ok t) : Inv t := by
  have hnc := h.not_committing hp
  have hcount := count_setPc s p (.inOp (w ++ [b]))
  rw [hp] at hcount
  have hb := mem_absorb s.lh b
  have hlen := (absorb_length s.lh b).1
  have hnd := absorb_nodup s.lh b h.nodup
  have hpos := h.positive hp
  unfold logWrite at ht
  split_ifs at ht
  cases ht
  obtain ⟨h1, h2, h3, h4, h5, h6, h7, h8, h9⟩ := h
  refine ⟨?_, ?_, ?_, h4, ?_, ?_, ?_, hnd, ?_⟩
  · change s.outstanding = (∑ q, ((s.setPc p (.inOp (w ++ [b]))).pc q).opCount : Nat)
    simp only [Pc.opCount] at hcount h1 ⊢
    omega
  · simp only [setPc, update_apply]
    grind
  · simp only [setPc, update_apply]
    grind
  · intro _ h0
    change s.outstanding = 0 at h0
    omega
  · simp only [setPc, update_apply]
    grind
  · simp only [setPc, update_apply]
    grind
  · simp only [setPc, update_apply]
    grind [NoSpace.mono]

theorem endOp_inv (ht : endOp s p w = .ok t) : Inv t := by
  have hnc := h.not_committing hp
  unfold endOp at ht
  simp only [hnc, Bool.false_eq_true, if_false] at ht
  split_ifs at ht with h0
  · -- the last operation: the process turns into the committer
    cases ht
    have hcount := count_setPc s p (.commit .start)
    rw [hp] at hcount
    have hone : ∀ q v, s.pc q = .inOp v → q = p := by
      intro q v hq
      by_contra hne
      have hl := Counting.le_sum (fun r => ((s.setPc p (.commit .start)).pc r).opCount) q
      have h1 := h.count
      simp only [setPc, update_of_ne hne, hq] at hl hcount
      simp only [Pc.opCount] at hl hcount h1
      omega
    obtain ⟨h1, h2, h3, h4, h5, h6, h7, h8, h9⟩ := h
    refine ⟨?_, ?_, ?_, fun _ => h0, ?_, ?_, ?_, h8, fun _ _ => Or.inl rfl⟩
    · change s.outstanding - 1 = (∑ q, ((s.setPc p (.commit .start)).pc q).opCount : Nat)
      simp only [Pc.opCount] at hcount h1 ⊢
      omega
    · simp only [setPc, update_apply, true_iff]
      exact ⟨p, .start, if_pos rfl⟩
    · simp only [setPc, update_apply]
      grind
    · exact fun hc => absurd hc (by simp [setPc])
    all_goals
      simp only [setPc, update_apply]
      grind
  · cases ht
    have hcount := count_setPc s p .outside
    rw [hp] at hcount
    obtain ⟨h1, h2, h3, h4, h5, h6, h7, h8, h9⟩ := h
    refine ⟨?_, ?_, ?_, ?_, ?_, ?_, ?_, h8, ?_⟩
    · simp only [wakeup_opCount]
      change s.outstanding - 1 = (∑ q, ((s.setPc p .outside).pc q).opCount : Nat)
      simp only [Pc.opCount] at hcount h1 ⊢
      omega
    · simp only [wakeup_commit, update_apply]
      grind
    · simp only [wakeup_commit, update_apply]
      grind
    · exact fun hc => absurd hc (by simp)
    · exact fun _ hz => absurd hz h0
    · simp only [wakeup_commit, update_apply]
      grind
    · simp only [wakeup_inOp, update_apply]
      grind
    · exact fun q hq => absurd hq (wakeup_not_asleep _ q)

end

/-- The committer moves on, leaving header and history alone or emptying both. -/
theorem Inv.stage (h : Inv s) {c d : Stage} (hp : s.pc p = .commit c)
    (lh : List Nat) (ops : List (List Nat)) (hb : lh = s.lh ∧ ops = s.ops ∨ lh = [] ∧ ops = [])
    (he : d = .eraseHead ∨ d = .done → lh = [] ∧ ops = []) :
    Inv ({ s with lh := lh, ops := ops }.setPc p (.commit d)) := by
  have hcom : s.committing = true := h.committer.mpr ⟨p, c, hp⟩
  have hno := h.no_op (h.quiet hcom)
  have hcount := count_setPc s p (.commit d)
  rw [hp] at hcount
  obtain ⟨h1, h2, h3, h4, h5, h6, h7, h8, h9⟩ := h
  refine ⟨?_, ?_, ?_, h4, ?_, ?_, ?_, ?_, fun _ _ => Or.inl hcom⟩
  · change s.outstanding = (∑ q, ((s.setPc p (.commit d)).pc q).opCount : Nat)
    simp only [Pc.opCount] at hcount h1 ⊢
    omega
  · simp only [setPc, update_apply, hcom, true_iff]
    exact ⟨p, d, if_pos rfl⟩
  · simp only [setPc, update_apply]
    grind
  · exact fun hf => absurd hf (by simp [setPc, hcom])
  · simp only [setPc, update_apply]
    grind
  · simp only [setPc, update_apply]
    grind
  · rcases hb with ⟨rfl, _⟩ | ⟨rfl, _⟩
    · exact h8
    · exact nodup_nil

theorem commitStep_inv (h : Inv s) {c : Stage} (hp : s.pc p = .commit c)
    (ht : commitStep s p c = some t) : Inv t := by
  have keep (d : Stage) (hd : d = .eraseHead ∨ d = .done → s.lh = [] ∧ s.ops = []) :
      Inv (s.setPc p (.commit d)) := h.stage hp s.lh s.ops (Or.inl ⟨rfl, rfl⟩) hd
  cases c with
  | start =>
    simp only [commitStep] at ht
    split_ifs at ht with hn
    · cases ht
      exact keep _ (by simp)
    · cases ht
      have hlh : s.lh = [] := eq_nil_of_length_eq_zero (by omega)
      have hi := h.stage hp (d := .done) [] [] (Or.inr ⟨rfl, rfl⟩) (fun _ => ⟨rfl, rfl⟩)
      rwa [← hlh] at hi
  | writeLog | install =>
    simp only [commitStep] at ht
    split_ifs at ht <;> cases ht <;> exact keep _ (by simp)
  | writeHead =>
    cases ht
    exact keep _ (by simp)
  | clear =>
    cases ht
    exact h.stage hp [] [] (Or.inr ⟨rfl, rfl⟩) (fun _ => ⟨rfl, rfl⟩)
  | eraseHead =>
    cases ht
    exact keep _ (fun _ => h.erased p _ hp (Or.inl rfl))
  | done => cases ht

theorem endCommit_inv (h : Inv s) (hp : s.pc p = .commit .done) : Inv (endCommit s p) := by
  have hcom : s.committing = true := h.committer.mpr ⟨p, _, hp⟩
  have hcount := count_setPc s p .outside
  rw [hp] at hcount
  obtain ⟨h1, h2, h3, h4, h5, h6, h7, h8, h9⟩ := h
  refine ⟨?_, ?_, ?_, ?_, ?_, ?_, ?_, h8, ?_⟩
  · simp only [endCommit, wakeup_opCount]
    change s.outstanding = (∑ q, ((s.setPc p .outside).pc q).opCount : Nat)
    simp only [Pc.opCount] at hcount h1 ⊢
    omega
  · simp only [endCommit, wakeup_commit, update_apply]
    grind
  · simp only [endCommit, wakeup_commit, update_apply]
    grind
  · exact fun hf => absurd hf (by simp [endCommit])
  · exact fun _ _ => h6 p _ hp (Or.inr rfl)
  · simp only [endCommit, wakeup_commit, update_apply]
    grind
  · simp only [endCommit, wakeup_inOp, update_apply]
    grind
  · exact fun q hq => absurd hq (wakeup_not_asleep _ q)

theorem step_inv {l : Label P} (h : Inv s) (hs : Step size s l t) : Inv t := by
  rcases step_cases hs with ⟨p, rfl, hp, rfl⟩ | ⟨p, rfl, hp, rfl⟩ | ⟨p, rfl, hp, rfl⟩ |
    ⟨p, b, w, rfl, hp, ht⟩ | ⟨p, w, rfl, hp, ht⟩ | ⟨p, c, rfl, hp, ht⟩ | ⟨p, rfl, hp, rfl⟩
  · exact h.rest _ (Or.inl hp) (Or.inr (Or.inl rfl)) (by simp)
  · exact beginOp_inv h hp
  · exact h.rest _ (Or.inr (Or.inr hp)) (Or.inr (Or.inl rfl)) (by simp)
  · exact logWrite_inv h hp ht
  · exact endOp_inv h hp ht
  · exact commitStep_inv h hp ht
  · exact endCommit_inv h hp

theorem run_inv {ls : List (Label P)} (hr : Run (Step size) (LogState.init P) ls t) : Inv t :=
  hr.invariant Inv init_inv fun _ _ _ hi hs => step_inv hi hs

end

/-- The log state machine over every interleaving, at every moment `log.lock` is free. -/
theorem log_state_machine {P : Type} [DecidableEq P] [Fintype P] (size : Nat)
    (ls : List (Label P)) (s : LogState P) (hr : Run (Step size) (LogState.init P) ls s) :
    (s.committing = true → s.outstanding = 0 ∧ ∀ p b, step size s (.logWrite p b) = none) ∧
    (∀ l, step size s l ≠ some (.error .logCommitting)) ∧
    (s.committing = true → ∀ b, b ∈ s.lh ↔ ∃ op ∈ s.ops, b ∈ op) ∧
    s.outstanding = (Finset.univ.filter fun p => (s.pc p).isInOp).card ∧
    (s.outstanding = 0 → s.committing = false → s.lh = []) ∧
    (∀ p, s.pc p = .asleep → s.committing = true ∨ NoSpace s.lh.length s.outstanding) := by
  have h := run_inv hr
  have hno (hc : s.committing = true) := h.no_op (h.quiet hc)
  refine ⟨fun hc => ⟨h.quiet hc, ?_⟩, ?_, ?_, ?_, fun h0 hc => (h.idle hc h0).1, h.waiting⟩
  · intro p b
    have hp := hno hc p
    simp only [step]
  · intro l hl
    cases l with
    | endOp p =>
      cases hp : s.pc p with
      | inOp w =>
        simp only [step, hp, endOp, h.not_committing hp] at hl
        split_ifs at hl
        all_goals simp_all
      | _ => simp [step, hp] at hl
    | logWrite p b =>
      cases hp : s.pc p with
      | inOp w =>
        simp only [step, hp, logWrite] at hl
        split_ifs at hl <;> simp at hl
      | _ => simp [step, hp] at hl
    | commitStep p =>
      cases hp : s.pc p <;> simp [step, hp] at hl
    | callBegin p | beginOp p | wake p | endCommit p =>
      simp only [step] at hl
      split_ifs at hl
      simp at hl
  · intro hc b
    rw [h.blocks b]
    constructor
    · rintro (hb | ⟨p, w, hp, _⟩)
      · exact hb
      · exact absurd hp (hno hc p w)
    · exact Or.inl
  · rw [h.count, Finset.card_filter]
    congr 1
    apply Finset.sum_congr rfl
    intro p _
    cases hp : s.pc p <;> simp [Pc.opCount, Pc.isInOp]

/-- Two processes: the first commits its operation while the second waits for it. -/
theorem log_state_machine_two_processes :
    ∃ (ls : List (Label (Fin 2))) (s : LogState (Fin 2)),
      Run (Step LOGSIZE) (LogState.init (Fin 2)) ls s ∧ s.committing = true ∧
      s.pc 1 = .asleep ∧ (∀ b, b ∈ s.lh ↔ ∃ op ∈ s.ops, b ∈ op) ∧ s.outstanding = 0 := by
  have hr : Run (Step LOGSIZE) (LogState.init (Fin 2))
      [.callBegin 0, .beginOp 0, .logWrite 0 7, .callBegin 1, .endOp 0, .beginOp 1] _ :=
    run_of_exec (step LOGSIZE) _ _ _ rfl
  obtain ⟨h1, _, h3, _⟩ := log_state_machine LOGSIZE _ _ hr
  exact ⟨_, _, hr, rfl, rfl, h3 rfl, (h1 rfl).1⟩

end Xv6.Log
