import Mathlib

namespace RingBuffer

open Function List Nat UInt32

variable {α : Type} {n : Nat} [NeZero n] {buf : Fin n → α} {r w e : UInt32}

/-- The place in the buffer of the counter `w`. -/
def place (n : Nat) [NeZero n] (w : UInt32) : Fin n := Fin.ofNat n w.toNat

/-- What is in the buffer between two counters that wrap. -/
def contents (buf : Fin n → α) (r w : UInt32) : List α :=
  (List.range (w - r).toNat).map fun j => buf (place n (r + UInt32.ofNat j))

theorem toNat_sub_add_one (h : (w - r).toNat < 2 ^ 32 - 1) :
    (w + 1 - r).toNat = (w - r).toNat + 1 := by
  simp only [UInt32.toNat_sub, UInt32.toNat_add, toNat_one] at h ⊢
  omega

theorem toNat_sub_one_add (h : w ≠ r) : (w - 1 - r).toNat + 1 = (w - r).toNat := by
  have hr := r.toNat_lt
  have hw := w.toNat_lt
  have hne : w.toNat ≠ r.toNat := fun heq => h (UInt32.toNat_inj.mp heq)
  simp only [UInt32.toNat_sub, toNat_one]
  omega

theorem toNat_sub_succ (h : w ≠ r) : (w - (r + 1)).toNat + 1 = (w - r).toNat := by
  have hr := r.toNat_lt
  have hw := w.toNat_lt
  have hne : w.toNat ≠ r.toNat := fun heq => h (UInt32.toNat_inj.mp heq)
  simp only [UInt32.toNat_sub, UInt32.toNat_add, toNat_one]
  omega

theorem toNat_sub_eq_zero : (w - r).toNat = 0 ↔ w = r := by
  have hr := r.toNat_lt
  have hw := w.toNat_lt
  rw [← UInt32.toNat_inj, UInt32.toNat_sub]
  omega

theorem toNat_sub_add_sub (h : (w - r).toNat ≤ (e - r).toNat) :
    (w - r).toNat + (e - w).toNat = (e - r).toNat := by
  have hw := w.toNat_lt
  simp only [UInt32.toNat_sub] at h ⊢
  omega

theorem add_ofNat_succ (j : Nat) : r + ofNat (j + 1) = r + 1 + ofNat j := by
  rw [ofNat_add]
  change r + (ofNat j + 1) = _
  grind

theorem contents_concat (h : w ≠ r) :
    contents buf r w = contents buf r (w - 1) ++ [buf (place n (w - 1))] := by
  have hw : r + ofNat (w - 1 - r).toNat = w - 1 := by
    rw [UInt32.ofNat_toNat]
    grind
  unfold contents
  rw [← toNat_sub_one_add h, range_succ, map_append, map_singleton, hw]

section Divides

variable (hn : n ∣ 2 ^ 32)
include hn

theorem place_add (j : Nat) : (place n (r + ofNat j)).val = (r.toNat + j) % n := by
  change (r + ofNat j).toNat % n = _
  rw [UInt32.toNat_add, toNat_ofNat', add_mod_mod, mod_mod_of_dvd _ hn]

theorem place_add_ne {i j : Nat} (hij : i < j) (hj : j < i + n) :
    place n (r + ofNat i) ≠ place n (r + ofNat j) := by
  intro heq
  have hmod := congrArg Fin.val heq
  rw [place_add hn, place_add hn] at hmod
  have hdvd := (modEq_iff_dvd' (by omega)).mp hmod
  have hsub : r.toNat + j - (r.toNat + i) = j - i := by omega
  rw [hsub] at hdvd
  have := le_of_dvd (by omega) hdvd
  omega

theorem contents_update (h : (w - r).toNat ≤ (e - r).toNat) (he : (e - r).toNat < n) (a : α) :
    contents (update buf (place n e) a) r w = contents buf r w := by
  have hplace : r + ofNat (e - r).toNat = e := by
    rw [UInt32.ofNat_toNat]
    grind
  apply map_congr_left
  intro j hj
  have hj := mem_range.mp hj
  have hne := place_add_ne hn (r := r) (i := j) (j := (e - r).toNat) (by omega) (by omega)
  rw [hplace] at hne
  rw [update_of_ne hne]

theorem contents_push (h : (w - r).toNat < n) (hlt : n < 2 ^ 32) (a : α) :
    contents (update buf (place n w) a) r (w + 1) = contents buf r w ++ [a] := by
  have hne : w + 1 ≠ r := by
    intro heq
    have hsucc := toNat_sub_add_one (w := w) (r := r) (by omega)
    rw [toNat_sub_eq_zero.mpr heq] at hsucc
    omega
  have hw : w + 1 - 1 = w := by grind
  rw [contents_concat hne, hw, contents_update hn le_rfl h, update_self]

end Divides

theorem contents_pop (h : w ≠ r) :
    contents buf r w = buf (place n r) :: contents buf (r + 1) w := by
  unfold contents
  rw [← toNat_sub_succ h, range_succ_eq_map, map_cons, map_map]
  have hzero : r + ofNat 0 = r := UInt32.add_zero r
  rw [hzero]
  congr 1
  apply map_congr_left
  intro j _
  rw [comp_apply, add_ofNat_succ]

theorem contents_self : contents buf r r = [] := by
  unfold contents
  rw [toNat_sub_eq_zero.mpr rfl]
  rfl

theorem length_contents : (contents buf r w).length = (w - r).toNat := by
  rw [contents, length_map, length_range]

theorem contents_eq_nil : contents buf r w = [] ↔ w = r := by
  rw [← length_eq_zero_iff, length_contents, toNat_sub_eq_zero]

theorem contents_append (h : (w - r).toNat ≤ (e - r).toNat) :
    contents buf r e = contents buf r w ++ contents buf w e := by
  unfold contents
  rw [← toNat_sub_add_sub h, range_add, map_append, map_map]
  congr 1
  apply map_congr_left
  intro j _
  have hplace : r + ofNat ((w - r).toNat + j) = w + ofNat j := by
    rw [ofNat_add, UInt32.ofNat_toNat]
    grind
  rw [comp_apply, hplace]

end RingBuffer
