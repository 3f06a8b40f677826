import Mathlib

namespace Xv6

open Function

/-- The bytes of an address space. -/
abbrev Bytes : Type := BitVec 64 → UInt8

/-- `while(n-- > 0) *d++ = *s++;` -/
def copyUp : Nat → BitVec 64 → BitVec 64 → Bytes → Bytes
  | 0, _, _, m => m
  | n + 1, d, s, m => copyUp n (d + 1) (s + 1) (update m d (m s))

/-- `while(n-- > 0) *--d = *--s;` -/
def copyDown : Nat → BitVec 64 → BitVec 64 → Bytes → Bytes
  | 0, _, _, m => m
  | n + 1, d, s, m => copyDown n (d - 1) (s - 1) (update m (d - 1) (m (s - 1)))

/-- `memmove` of `kernel/string.c`; `n` is a `uint`. -/
def Kernel.memmove (dst src : BitVec 64) (n : BitVec 32) (m : Bytes) : BitVec 64 × Bytes :=
  if n = 0 then (dst, m)
  else if src < dst ∧ src + n.setWidth 64 > dst then
    (dst, copyDown n.toNat (dst + n.setWidth 64) (src + n.setWidth 64) m)
  else (dst, copyUp n.toNat dst src m)

/-- `memmove` of `user/ulib.c`; `n` is an `int`. -/
def User.memmove (dst src : BitVec 64) (n : BitVec 32) (m : Bytes) : BitVec 64 × Bytes :=
  if src > dst then (dst, copyUp n.toInt.toNat dst src m)
  else (dst, copyDown n.toInt.toNat (dst + n.signExtend 64) (src + n.signExtend 64) m)

/-- Byte `a` after the `n` bytes at `src` were moved to `dst`. -/
def moved (dst src : BitVec 64) (n : Nat) (m : Bytes) (a : BitVec 64) : UInt8 :=
  if dst.toNat ≤ a.toNat ∧ a.toNat < dst.toNat + n then m (src + (a - dst)) else m a

section

variable {d s : BitVec 64} {n : Nat} (hd : d.toNat + n ≤ 2 ^ 64) (hs : s.toNat + n ≤ 2 ^ 64)
include hd hs

/-- Going up is right unless the destination starts inside the source. -/
theorem copyUp_eq (hds : d.toNat ≤ s.toNat ∨ s.toNat + n ≤ d.toNat) (m : Bytes) :
    copyUp n d s m = moved d s n m := by
  induction n generalizing d s m with
  | zero =>
    funext a
    exact (if_neg (by omega)).symm
  | succ n ih =>
    funext a
    rw [copyUp, ih (by bv_omega) (by bv_omega) (by bv_omega)]
    unfold moved
    by_cases had : a = d
    · subst had
      rw [if_neg (by bv_omega), update_self, if_pos (by omega), BitVec.sub_self, BitVec.add_zero]
    rw [update_of_ne had]
    by_cases hin : d.toNat ≤ a.toNat ∧ a.toNat < d.toNat + (n + 1)
    · -- the byte to be read lies above the one written, or before the destination
      rw [if_pos (by bv_omega), if_pos hin, update_of_ne (by bv_omega),
        show s + 1 + (a - (d + 1)) = s + (a - d) by bv_omega]
    · rw [if_neg (by bv_omega), if_neg hin]

theorem copyDown_eq (hds : s.toNat ≤ d.toNat) (m : Bytes) :
    copyDown n (d + BitVec.ofNat 64 n) (s + BitVec.ofNat 64 n) m = moved d s n m := by
  induction n generalizing m with
  | zero =>
    funext a
    exact (if_neg (by omega)).symm
  | succ n ih =>
    funext a
    have hd1 : d + BitVec.ofNat 64 (n + 1) - 1 = d + BitVec.ofNat 64 n := by bv_omega
    have hs1 : s + BitVec.ofNat 64 (n + 1) - 1 = s + BitVec.ofNat 64 n := by bv_omega
    rw [copyDown, hd1, hs1, ih (by omega) (by omega)]
    unfold moved
    by_cases had : a = d + BitVec.ofNat 64 n
    · subst had
      rw [if_neg (by bv_omega), update_self, if_pos (by bv_omega),
        show d + BitVec.ofNat 64 n - d = BitVec.ofNat 64 n by bv_omega]
    rw [update_of_ne had]
    by_cases hin : d.toNat ≤ a.toNat ∧ a.toNat < d.toNat + (n + 1)
    · rw [if_pos (by bv_omega), if_pos hin, update_of_ne (by bv_omega)]
    · rw [if_neg (by bv_omega), if_neg hin]

end

theorem Kernel.memmove_eq {dst src : BitVec 64} {n : BitVec 32} (hd : dst.toNat + n.toNat ≤ 2 ^ 64)
    (hs : src.toNat + n.toNat ≤ 2 ^ 64) (m : Bytes) :
    Kernel.memmove dst src n m = (dst, moved dst src n.toNat m) := by
  have hn : n.setWidth 64 = BitVec.ofNat 64 n.toNat := by bv_omega
  unfold memmove
  split_ifs with h0 hdown
  · subst h0
    congr 1
    funext a
    exact (if_neg (by simp)).symm
  · rw [hn, copyDown_eq hd hs (by bv_omega)]
  · rw [copyUp_eq hd hs]
    bv_omega

theorem User.memmove_eq {dst src : BitVec 64} {n : BitVec 32}
    (hd : dst.toNat + n.toInt.toNat ≤ 2 ^ 64) (hs : src.toNat + n.toInt.toNat ≤ 2 ^ 64) (m : Bytes) :
    User.memmove dst src n m = (dst, moved dst src n.toInt.toNat m) := by
  unfold memmove
  split_ifs with hup
  · rw [copyUp_eq hd hs (by bv_omega)]
  · rw [← copyDown_eq hd hs (by bv_omega)]
    -- a negative length moves the pointers but copies nothing
    cases hn : n.toInt.toNat with
    | zero => rfl
    | succ k =>
      have hint : n.toInt = ((k + 1 : Nat) : Int) := by omega
      rw [BitVec.signExtend, hint, BitVec.ofInt_natCast]

theorem moved_spec {dst src : BitVec 64} {n : Nat} {m m' : Bytes} (h : m' = moved dst src n m)
    (hd : dst.toNat + n ≤ 2 ^ 64) :
    (∀ i < n, m' (dst + BitVec.ofNat 64 i) = m (src + BitVec.ofNat 64 i)) ∧
      ∀ a, a.toNat < dst.toNat ∨ dst.toNat + n ≤ a.toNat → m' a = m a := by
  refine ⟨fun i hi => ?_, fun a ha => ?_⟩
  · rw [h, moved, if_pos (by bv_omega),
      show dst + BitVec.ofNat 64 i - dst = BitVec.ofNat 64 i by bv_omega]
  · rw [h, moved, if_neg (by omega)]

/-- After either `memmove` the `n` bytes at `dst` are those that were at `src`, and no other byte
has changed, however the two ranges overlap. -/
theorem memmove_moves (dst src : BitVec 64) (n : BitVec 32) (m : Bytes) :
    (dst.toNat + n.toNat ≤ 2 ^ 64 → src.toNat + n.toNat ≤ 2 ^ 64 →
      (∀ i < n.toNat, (Kernel.memmove dst src n m).2 (dst + BitVec.ofNat 64 i) =
        m (src + BitVec.ofNat 64 i)) ∧
      ∀ a, a.toNat < dst.toNat ∨ dst.toNat + n.toNat ≤ a.toNat →
        (Kernel.memmove dst src n m).2 a = m a) ∧
    (dst.toNat + n.toInt.toNat ≤ 2 ^ 64 → src.toNat + n.toInt.toNat ≤ 2 ^ 64 →
      (∀ i < n.toInt.toNat, (User.memmove dst src n m).2 (dst + BitVec.ofNat 64 i) =
        m (src + BitVec.ofNat 64 i)) ∧
      ∀ a, a.toNat < dst.toNat ∨ dst.toNat + n.toInt.toNat ≤ a.toNat →
        (User.memmove dst src n m).2 a = m a) :=
  ⟨fun hd hs => moved_spec (congrArg Prod.snd (Kernel.memmove_eq hd hs m)) hd,
    fun hd hs => moved_spec (congrArg Prod.snd (User.memmove_eq hd hs m)) hd⟩

/-- Three bytes are moved up by one. -/
theorem memmove_moves_up : (∀ i < 3, (Kernel.memmove 2 1 3 fun a => .ofNat a.toNat).2
      (2 + BitVec.ofNat 64 i) = .ofNat (1 + i)) ∧
    ∀ i < 3, (User.memmove 2 1 3 fun a => .ofNat a.toNat).2 (2 + BitVec.ofNat 64 i) =
      .ofNat (1 + i) := by
  obtain ⟨hkernel, huser⟩ := memmove_moves 2 1 3 fun a => .ofNat a.toNat
  refine ⟨fun i hi => ((hkernel (by decide) (by decide)).1 i hi).trans ?_,
    fun i hi => ((huser (by decide) (by decide)).1 i hi).trans ?_⟩
  all_goals
    congr 1
    bv_omega

end Xv6
