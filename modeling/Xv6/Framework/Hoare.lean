import Mathlib

namespace Hoare

/-- Programs over a state that can stop with an error. -/
abbrev Prog (σ ε α : Type) : Type := StateT σ (Except ε) α

variable {σ ε α β : Type} {E : ε → Prop} {s t : σ}

/-- Started in `s`, the program ends in a state and with a result that satisfy `Q`, or stops with
an error that `E` admits. -/
def Wp (E : ε → Prop) (x : Prog σ ε α) (s : σ) (Q : α → σ → Prop) : Prop :=
  match x s with
  | .ok (a, t) => Q a t
  | .error e => E e

/-- Every error is admitted. -/
abbrev Any : ε → Prop := fun _ => True

variable {x : Prog σ ε α} {Q R : α → σ → Prop}

theorem Wp.mono (h : Wp E x s Q) (hQR : ∀ a t, Q a t → R a t) : Wp E x s R := by
  unfold Wp at *
  split at h
  · exact hQR _ _ h
  · exact h

theorem Wp.errors {F : ε → Prop} (h : Wp E x s Q) (hEF : ∀ e, E e → F e) : Wp F x s Q := by
  unfold Wp at *
  split at h
  · exact h
  · exact hEF _ h

theorem Wp.and (hQ : Wp E x s Q) (hR : Wp E x s R) : Wp E x s fun a t => Q a t ∧ R a t := by
  unfold Wp at *
  split at hQ
  · next hx =>
    rw [hx] at hR
    exact ⟨hQ, hR⟩
  · exact hQ

theorem Wp.also {F : ε → Prop} (hQ : Wp E x s Q)
    (hR : Wp F x s R) : Wp (fun e => E e ∧ F e) x s fun a t => Q a t ∧ R a t := by
  unfold Wp at *
  cases hx : x s with
  | ok | error =>
    rw [hx] at hQ hR
    exact ⟨hQ, hR⟩

/-- A fact about the program where it ends, beside one that also says how it can stop. -/
theorem Wp.besides (hQ : Wp E x s Q) (hR : Wp Any x s R) : Wp E x s fun a t => Q a t ∧ R a t :=
  (hQ.also hR).errors fun _ he => he.1

variable {a : α}

section

variable {x : Prog σ ε α} {Q : α → σ → Prop}

theorem Wp.result (h : Wp E x s Q) (hx : x s = .ok (a, t)) : Q a t := by
  unfold Wp at h
  rwa [hx] at h

theorem Wp.error {e : ε} (h : Wp E x s Q) (hx : x s = .error e) : E e := by
  unfold Wp at h
  rwa [hx] at h

theorem Wp.total (h : Wp (fun _ => False) x s Q) : ∃ a t, x s = .ok (a, t) ∧ Q a t := by
  cases hx : x s with
  | ok r => exact ⟨r.1, r.2, rfl, h.result hx⟩
  | error e => exact (h.error hx).elim

theorem Wp.of_ok (hx : x s = .ok (a, t)) (h : Q a t) : Wp E x s Q := by
  unfold Wp
  rwa [hx]

theorem Wp.of_run {y : Prog σ ε α} (hxy : x s = y t) (h : Wp E y t Q) : Wp E x s Q := by
  unfold Wp
  rwa [hxy]

/-- The postcondition may say which run it is about. -/
theorem Wp.remember (h : Wp E x s Q) : Wp E x s fun a t => x s = .ok (a, t) ∧ Q a t := by
  unfold Wp at *
  split at h
  · exact ⟨by assumption, h⟩
  · exact h

end

theorem ok_of_toOption (h : (x s).toOption.map Prod.fst = some a) : ∃ t, x s = .ok (a, t) := by
  cases hx : x s with
  | error e =>
    rw [hx] at h
    cases h
  | ok b =>
    rw [hx] at h
    cases h
    exact ⟨b.2, rfl⟩

theorem run_get_bind (f : σ → Prog σ ε α) (s : σ) : (get >>= f) s = f s s := rfl

variable {p : Prop}

theorem run_ite [Decidable p] (x y : Prog σ ε α) (s : σ) :
    (if p then x else y) s = if p then x s else y s := by
  split_ifs <;> rfl

variable {f : α → Prog σ ε β}

theorem run_bind_ok (hx : x s = .ok (a, t)) : (x >>= f) s = f a t := by
  change (x s >>= fun p => f p.1 p.2) = _
  rw [hx]
  rfl

theorem bind_ok {b : β} (h : (x >>= f) s = .ok (b, t)) :
    ∃ a u, x s = .ok (a, u) ∧ f a u = .ok (b, t) := by
  change (x s >>= fun p => f p.1 p.2) = _ at h
  cases hx : x s with
  | error e =>
    rw [hx] at h
    cases h
  | ok r =>
    rw [hx] at h
    exact ⟨r.1, r.2, rfl, h⟩

@[simp] theorem wp_pure (a : α) (Q : α → σ → Prop) :
    Wp E (pure a : Prog σ ε α) s Q ↔ Q a s := Iff.rfl

@[simp] theorem wp_bind (x : Prog σ ε α) (f : α → Prog σ ε β) (Q : β → σ → Prop) :
    Wp E (x >>= f) s Q ↔ Wp E x s fun a t => Wp E (f a) t Q := by
  unfold Wp
  change (match (x s >>= fun p => f p.1 p.2) with
    | .ok (a, t) => Q a t
    | .error e => E e) ↔ _
  cases x s <;> rfl

/-- The rule of sequence. -/
theorem Wp.bind {R : β → σ → Prop}
    (hx : Wp E x s Q) (hf : ∀ a t, Q a t → Wp E (f a) t R) : Wp E (x >>= f) s R := by
  rw [wp_bind]
  exact hx.mono hf

@[simp] theorem wp_get (Q : σ → σ → Prop) : Wp E (get : Prog σ ε σ) s Q ↔ Q s s := Iff.rfl

@[simp] theorem wp_set (u : σ) (Q : PUnit → σ → Prop) :
    Wp E (set u : Prog σ ε PUnit) s Q ↔ Q ⟨⟩ u := Iff.rfl

@[simp] theorem wp_modify (f : σ → σ) (Q : PUnit → σ → Prop) :
    Wp E (modify f : Prog σ ε PUnit) s Q ↔ Q ⟨⟩ (f s) := Iff.rfl

@[simp] theorem wp_throw (e : ε) (Q : α → σ → Prop) :
    Wp E (throw e : Prog σ ε α) s Q ↔ E e := Iff.rfl

@[simp] theorem wp_ite [Decidable p] (x y : Prog σ ε α) (Q : α → σ → Prop) :
    Wp E (if p then x else y) s Q ↔ if p then Wp E x s Q else Wp E y s Q := by
  split_ifs <;> rfl

/-- `for(i = 0; i < n; i++)`. -/
def forUpto (f : Nat → Prog σ ε Unit) : Nat → Prog σ ε Unit
  | 0 => pure ()
  | n + 1 => do
      forUpto f n
      f n

/-- The rule of the counting loop, with an invariant that knows how far it has come. -/
theorem Wp.forUpto {f : Nat → Prog σ ε Unit} (I : Nat → σ → Prop) {n : Nat} (h0 : I 0 s)
    (hstep : ∀ i t, i < n → I i t → Wp E (f i) t fun _ u => I (i + 1) u) :
    Wp E (forUpto f n) s fun _ t => I n t := by
  induction n with
  | zero => exact h0
  | succ n ih =>
    rw [Hoare.forUpto]
    refine (ih fun i t hi => hstep i t (by omega)).bind fun _ t ht => ?_
    exact hstep n t (by omega) ht

-- a loop with a numeral for its bound is not to be unrolled
attribute [irreducible] forUpto

/-- Whatever state the program starts in, it ends in one related to it, if it ends. -/
structure Keeps (R : σ → σ → Prop) (x : Prog σ ε α) : Prop where
  wp : ∀ s, Wp (fun _ => True) x s fun _ t => R s t

section Keeps

variable {R : σ → σ → Prop} [IsPreorder σ R] {x y : Prog σ ε α} {f : α → Prog σ ε β}

theorem Keeps.pure (a : α) : Keeps R (pure a : Prog σ ε α) := ⟨fun s => refl s⟩

theorem Keeps.get : Keeps R (get : Prog σ ε σ) := ⟨fun s => refl s⟩

omit [IsPreorder σ R] in
theorem Keeps.throw (e : ε) : Keeps R (throw e : Prog σ ε α) := ⟨fun _ => trivial⟩

omit [IsPreorder σ R] in
theorem Keeps.modify {g : σ → σ} (h : ∀ s, R s (g s)) : Keeps R (modify g : Prog σ ε PUnit) := ⟨h⟩

theorem Keeps.bind (hx : Keeps R x) (hf : ∀ a, Keeps R (f a)) : Keeps R (x >>= f) := by
  refine ⟨fun s => ?_⟩
  refine (hx.wp s).bind ?_
  intro a t hst
  refine ((hf a).wp t).mono ?_
  intro _ u htu
  exact IsTrans.trans _ _ _ hst htu

omit [IsPreorder σ R] in
theorem Keeps.ite [Decidable p] (hx : Keeps R x) (hy : Keeps R y) :
    Keeps R (if p then x else y) := by
  split
  · exact hx
  · exact hy

end Keeps

end Hoare
