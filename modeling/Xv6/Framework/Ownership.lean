import Mathlib

namespace Ownership

open Function

variable {ι α : Type}

/-- The resources in use are exactly those held somewhere, and none is held at two places. -/
structure Exclusive (held : ι → Option α) (inUse : Set α) : Prop where
  inj : ∀ p q a, held p = some a → held q = some a → p = q
  mem_iff : ∀ a, a ∈ inUse ↔ ∃ p, held p = some a

namespace Exclusive

variable {held held' : ι → Option α} {inUse inUse' : Set α}

variable (h : Exclusive held inUse)
include h

theorem mem {p : ι} {a : α} (hp : held p = some a) : a ∈ inUse := (h.mem_iff a).mpr ⟨p, hp⟩

theorem mem_iff_existsUnique (a : α) : a ∈ inUse ↔ ∃! p, held p = some a := by
  rw [h.mem_iff]
  constructor
  · rintro ⟨p, hp⟩
    exact ⟨p, hp, fun q hq => h.inj q p a hq hp⟩
  · rintro ⟨p, hp, _⟩
    exact ⟨p, hp⟩

theorem acquire [DecidableEq ι] {p : ι} {a : α} (hp : held p = none) (ha : a ∉ inUse)
    (hheld : held' = update held p (some a)) (huse : ∀ b, b ∈ inUse' ↔ b = a ∨ b ∈ inUse) :
    Exclusive held' inUse' := by
  have hnot : ∀ q, held q ≠ some a := fun q hq => ha (h.mem hq)
  subst hheld
  constructor
  · intro q r b hq hr
    by_cases hqp : q = p <;> by_cases hrp : r = p
    · rw [hqp, hrp]
    · subst hqp
      rw [update_self] at hq
      rw [update_of_ne hrp, ← hq] at hr
      exact absurd hr (hnot r)
    · subst hrp
      rw [update_self] at hr
      rw [update_of_ne hqp, ← hr] at hq
      exact absurd hq (hnot q)
    · rw [update_of_ne hqp] at hq
      rw [update_of_ne hrp] at hr
      exact h.inj q r b hq hr
  · intro b
    rw [huse, h.mem_iff]
    constructor
    · intro hb
      cases hb with
      | inl hb =>
        subst hb
        exact ⟨p, update_self ..⟩
      | inr hb =>
        obtain ⟨q, hq⟩ := hb
        refine ⟨q, ?_⟩
        rw [update_of_ne]
        · exact hq
        · intro hqp
          rw [hqp, hp] at hq
          cases hq
    · rintro ⟨q, hq⟩
      by_cases hqp : q = p
      · subst hqp
        rw [update_self] at hq
        exact .inl (Option.some.inj hq).symm
      · rw [update_of_ne hqp] at hq
        exact .inr ⟨q, hq⟩

theorem release (R : Set ι) (hin : ∀ p, p ∈ R → held' p = none)
    (hout : ∀ p, p ∉ R → held' p = held p)
    (huse : ∀ b, b ∈ inUse' ↔ b ∈ inUse ∧ ∀ p ∈ R, held p ≠ some b) : Exclusive held' inUse' := by
  have hback : ∀ {p b}, held' p = some b → p ∉ R ∧ held p = some b := by
    intro p b hp
    by_cases hR : p ∈ R
    · rw [hin p hR] at hp
      cases hp
    · exact ⟨hR, hout p hR ▸ hp⟩
  constructor
  · intro p q b hp hq
    exact h.inj p q b (hback hp).2 (hback hq).2
  intro b
  rw [huse, h.mem_iff]
  constructor
  · rintro ⟨⟨p, hp⟩, hR⟩
    have hpR : p ∉ R := fun hpR => hR p hpR hp
    exact ⟨p, (hout p hpR).trans hp⟩
  · rintro ⟨p, hp⟩
    obtain ⟨hpR, hp⟩ := hback hp
    refine ⟨⟨p, hp⟩, fun q hqR hq => hpR ?_⟩
    rw [h.inj p q b hp hq]
    exact hqR

theorem congr (hheld : ∀ p, held' p = held p) (huse : ∀ b, b ∈ inUse' ↔ b ∈ inUse) :
    Exclusive held' inUse' := by
  rw [funext hheld, Set.ext huse]
  exact h

end Exclusive

end Ownership
