import Mathlib

namespace Transition

variable {σ ℓ : Type}

/-- The runs of a labelled transition relation, by the labels taken. -/
inductive Run (R : σ → ℓ → σ → Prop) (s : σ) : List ℓ → σ → Prop
  | refl : Run R s [] s
  | snoc {ls : List ℓ} {t u : σ} {l : ℓ} (h : Run R s ls t) (hl : R t l u) : Run R s (ls ++ [l]) u

namespace Run

variable {R S : σ → ℓ → σ → Prop} {s t : σ} {ls : List ℓ}

/-- What holds at the start and survives every step holds after every run. -/
theorem invariant (h : Run R s ls t) (I : σ → Prop) (h0 : I s)
    (hstep : ∀ t l u, I t → R t l u → I u) : I t := by
  induction h with
  | refl => exact h0
  | snoc _ hl ih => exact hstep _ _ _ ih hl

theorem mono (h : Run R s ls t) (hRS : ∀ t l u, R t l u → S t l u) : Run S s ls t := by
  induction h with
  | refl => exact .refl
  | snoc _ hl ih => exact .snoc ih (hRS _ _ _ hl)

theorem cons {u : σ} {l : ℓ} (hl : R s l t) (h : Run R t ls u) : Run R s (l :: ls) u := by
  induction h with
  | refl => simpa using Run.snoc .refl hl
  | snoc _ hl' ih => exact .snoc ih hl'

/-- An invariant of a run may be used at each of its steps. -/
theorem with_invariant (h : Run R s ls t) (I : σ → Prop) (h0 : I s)
    (hstep : ∀ t l u, I t → R t l u → I u) : Run (fun t l u => R t l u ∧ I t) s ls t := by
  induction h with
  | refl => exact .refl
  | snoc hrun hl ih => exact .snoc ih ⟨hl, hrun.invariant I h0 hstep⟩

end Run

/-- Executes a step function that can refuse a label (`none`) or fail. -/
def exec {ε : Type} (f : σ → ℓ → Option (Except ε σ)) : σ → List ℓ → Option σ
  | s, [] => some s
  | s, l :: ls =>
      match f s l with
      | some (.ok t) => exec f t ls
      | _ => none

/-- `C` holds of every step an execution attempts, the failing one included. -/
def Along {ε : Type} (f : σ → ℓ → Option (Except ε σ)) (C : σ → ℓ → Prop) : σ → List ℓ → Prop
  | _, [] => True
  | s, l :: ls =>
      C s l ∧
        match f s l with
        | some (.ok t) => Along f C t ls
        | _ => True

instance Along.decidable {ε : Type} (f : σ → ℓ → Option (Except ε σ)) (C : σ → ℓ → Prop)
    [∀ s l, Decidable (C s l)] : ∀ s ls, Decidable (Along f C s ls)
  | _, [] => inferInstanceAs (Decidable True)
  | s, l :: ls =>
      have : Decidable (match f s l with
          | some (.ok t) => Along f C t ls
          | _ => True) :=
        match f s l with
        | some (.ok t) => Along.decidable f C t ls
        | some (.error _) => inferInstanceAs (Decidable True)
        | none => inferInstanceAs (Decidable True)
      inferInstanceAs (Decidable (_ ∧ _))

section

variable {ε : Type} (f : σ → ℓ → Option (Except ε σ))

/-- Two step conditions that agree in every state with the invariant `I` agree along every
execution. -/
theorem along_congr (C D : σ → ℓ → Prop) (I : σ → Prop)
    (hI : ∀ s l t, I s → f s l = some (.ok t) → I t) (hCD : ∀ s l, I s → (C s l ↔ D s l)) (s : σ)
    (ls : List ℓ) (hs : I s) : Along f C s ls ↔ Along f D s ls := by
  induction ls generalizing s with
  | nil => exact Iff.rfl
  | cons l ls ih =>
    rw [Along, Along, hCD s l hs]
    apply and_congr Iff.rfl
    split
    · next t ht => exact ih t (hI s l t hs ht)
    · exact Iff.rfl

theorem run_of_exec (s t : σ) (ls : List ℓ) (h : exec f s ls = some t) :
    Run (fun s l t => f s l = some (.ok t)) s ls t := by
  induction ls generalizing s with
  | nil =>
    cases h
    exact .refl
  | cons l ls ih =>
    rw [exec] at h
    split at h
    · next u hu => exact .cons hu (ih u h)
    · cases h

end

/-- A step function that refuses the steps without `C`. -/
def guarded (f : σ → ℓ → Option σ) (C : σ → ℓ → Prop) [∀ s l, Decidable (C s l)] (s : σ) (l : ℓ) :
    Option (Except Empty σ) :=
  if C s l then (f s l).map .ok else none

theorem run_of_exec_guarded {f : σ → ℓ → Option σ} {C : σ → ℓ → Prop} [∀ s l, Decidable (C s l)]
    {s t : σ} {ls : List ℓ} (h : exec (guarded f C) s ls = some t) :
    Run (fun s l t => f s l = some t ∧ C s l) s ls t := by
  refine (run_of_exec _ _ _ _ h).mono fun s l t hl => ?_
  unfold guarded at hl
  split_ifs at hl with hC
  obtain ⟨u, hu, heq⟩ := Option.map_eq_some_iff.mp hl
  cases heq
  exact ⟨hu, hC⟩

end Transition
