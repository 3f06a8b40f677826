import Mathlib

namespace WriteTrace

open Function List

variable {A V : Type} [DecidableEq A]

def applyWrites : List (A × V) → (A → V) → A → V
  | [], d => d
  | w :: ws, d => applyWrites ws (update d w.1 w.2)

@[simp] theorem applyWrites_nil (d : A → V) : applyWrites [] d = d := rfl

@[simp] theorem applyWrites_cons (w : A × V) (ws : List (A × V)) (d : A → V) :
    applyWrites (w :: ws) d = applyWrites ws (update d w.1 w.2) := rfl

theorem applyWrites_append (us ws : List (A × V)) (d : A → V) :
    applyWrites (us ++ ws) d = applyWrites ws (applyWrites us d) := by
  induction us generalizing d with
  | nil => rfl
  | cons u us ih => simp [ih]

section

variable (P : (A → V) → Prop) (ws : List (A × V)) (d : A → V) (h0 : P d)
  (hstep : ∀ w ∈ ws, ∀ e, P e → P (update e w.1 w.2))
include h0 hstep

/-- A store property that every single write of `ws` keeps holds after every prefix of `ws`. -/
theorem take_invariant (k : Nat) : P (applyWrites (ws.take k) d) := by
  induction ws generalizing d k with
  | nil => simpa using h0
  | cons w ws ih =>
    cases k with
    | zero => simpa using h0
    | succ k =>
      have hw : P (update d w.1 w.2) := hstep w (by simp) d h0
      simpa using ih _ hw (fun u hu => hstep u (by simp [hu])) k

theorem invariant : P (applyWrites ws d) := by
  simpa using take_invariant P ws d h0 hstep ws.length

end

theorem take_append_cases (us ws : List (A × V)) (d : A → V) (k : Nat) :
    (k ≤ us.length ∧ applyWrites ((us ++ ws).take k) d = applyWrites (us.take k) d) ∨
    (us.length < k ∧ applyWrites ((us ++ ws).take k) d =
      applyWrites (ws.take (k - us.length)) (applyWrites us d)) := by
  rcases Nat.lt_or_ge us.length k with hk | hk
  · right
    refine ⟨hk, ?_⟩
    rw [take_append, take_of_length_le hk.le, applyWrites_append]
  · left
    exact ⟨hk, by rw [take_append_of_le_length hk]⟩

/-- A store together with the writes issued to it so far. -/
structure Device (A V : Type) where
  store : A → V
  issued : List (A × V)

namespace Device

def boot (d : A → V) : Device A V := ⟨d, []⟩

def write (a : A) (v : V) (d : Device A V) : Device A V :=
  ⟨update d.store a v, d.issued ++ [(a, v)]⟩

def extend (d : Device A V) (ws : List (A × V)) : Device A V :=
  ⟨applyWrites ws d.store, d.issued ++ ws⟩

@[simp] theorem extend_store (d : Device A V) (ws : List (A × V)) :
    (d.extend ws).store = applyWrites ws d.store := rfl

@[simp] theorem extend_nil (d : Device A V) : d.extend [] = d := by
  simp [extend]

theorem write_eq_extend (a : A) (v : V) (d : Device A V) : d.write a v = d.extend [(a, v)] := rfl

theorem extend_extend (d : Device A V) (us ws : List (A × V)) :
    (d.extend us).extend ws = d.extend (us ++ ws) := by
  simp [extend, applyWrites_append]

@[simp] theorem boot_extend_issued (d : A → V) (ws : List (A × V)) :
    ((boot d).extend ws).issued = ws := by
  simp [extend, boot]

end Device

/-- What a crash leaves of a run: only the first `k` writes it would have issued. -/
def crash (k : Nat) (f : Device A V → Device A V) (d : A → V) : A → V :=
  applyWrites ((f (Device.boot d)).issued.take k) d

end WriteTrace
