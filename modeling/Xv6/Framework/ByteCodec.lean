import Mathlib

namespace ByteCodec

open Nat

/-- A fixed-width record format of `n` bytes; decoding undoes encoding. -/
structure Codec (α : Type) (n : Nat) where
  enc : α → Fin n → UInt8
  dec : (Fin n → UInt8) → α
  dec_enc : ∀ a, dec (enc a) = a

attribute [simp] Codec.dec_enc

namespace Codec

variable {α β : Type} {k m n : Nat}

/-- Two records laid out one after the other. -/
def prod (c : Codec α m) (d : Codec β n) : Codec (α × β) (m + n) where
  enc x := Fin.append (c.enc x.1) (d.enc x.2)
  dec f := (c.dec fun j => f (Fin.castAdd n j), d.dec fun j => f (Fin.natAdd m j))
  dec_enc x := by simp

/-- `k` records of one format laid out one after the other. -/
def array (k : Nat) (c : Codec α n) : Codec (Fin k → α) (k * n) where
  enc v j := c.enc (v (finProdFinEquiv.symm j).1) (finProdFinEquiv.symm j).2
  dec f i := c.dec fun j => f (finProdFinEquiv (i, j))
  dec_enc v := by
    funext i
    simp only [Equiv.symm_apply_apply, dec_enc]

/-- The same bytes read as another type. -/
def iso (c : Codec α n) (f : β → α) (g : α → β) (h : ∀ b, g (f b) = b) : Codec β n where
  enc b := c.enc (f b)
  dec x := g (c.dec x)
  dec_enc b := by simp [h]

/-- Record `i` of a byte array read as consecutive records. -/
def get (c : Codec α n) (b : Fin m → UInt8) (i : Nat) : α :=
  c.dec fun j => if h : i * n + j < m then b ⟨i * n + j, h⟩ else 0

/-- The byte array with record `i` overwritten. -/
def put [NeZero n] (c : Codec α n) (b : Fin m → UInt8) (i : Nat) (a : α) : Fin m → UInt8 :=
  fun p => if p.val / n = i then c.enc a ⟨p.val % n, Nat.mod_lt _ (NeZero.pos n)⟩ else b p

theorem get_congr (c : Codec α n) (b b' : Fin m → UInt8) (i : Nat)
    (h : ∀ p : Fin m, i * n ≤ p.val → p.val < i * n + n → b p = b' p) : c.get b i = c.get b' i := by
  unfold get
  congr 1
  funext j
  split_ifs with hj
  · exact h _ (by simp) (by simp)
  · rfl

@[simp] theorem get_put_self [NeZero n] (c : Codec α n) (b : Fin m → UInt8) (i : Nat) (a : α)
    (h : (i + 1) * n ≤ m) : c.get (c.put b i a) i = a := by
  have hn : 0 < n := NeZero.pos n
  have he : (fun j : Fin n => if hj : i * n + j < m then c.put b i a ⟨i * n + j, hj⟩ else 0) =
      c.enc a := by
    funext j
    have hb : i * n + j < m := by
      have := j.isLt
      rw [succ_mul] at h
      omega
    have hd : (i * n + j.val) / n = i := by
      rw [Nat.mul_comm, mul_add_div hn, div_eq_of_lt j.isLt, Nat.add_zero]
    have hm : (i * n + j.val) % n = j.val := by
      rw [Nat.mul_comm, mul_add_mod, mod_eq_of_lt j.isLt]
    simp [hb, put, hd, hm]
  rw [get, he, dec_enc]

theorem get_put_of_ne [NeZero n] (c : Codec α n) (d : Codec β n) (b : Fin m → UInt8)
    (i j : Nat) (a : β) (h : i ≠ j) : c.get (d.put b j a) i = c.get b i := by
  apply get_congr
  intro p hl hu
  have hd : p.val / n = i := Nat.div_eq_of_lt_le hl (by rw [succ_mul]; exact hu)
  simp [put, hd, h]

/-- The byte array filled with the records `f 0`, `f 1`, and so on. -/
def fill [NeZero n] (c : Codec α n) (f : Nat → α) : Fin m → UInt8 :=
  fun p => c.enc (f (p.val / n)) ⟨p.val % n, Nat.mod_lt _ (NeZero.pos n)⟩

theorem get_fill [NeZero n] (c : Codec α n) (f : Nat → α) (i : Nat) (h : (i + 1) * n ≤ m) :
    c.get (c.fill f : Fin m → UInt8) i = f i := by
  rw [← c.get_put_self (c.fill f : Fin m → UInt8) i (f i) h]
  apply get_congr
  intro p hl hu
  have hd : p.val / n = i := Nat.div_eq_of_lt_le hl (by rw [succ_mul]; exact hu)
  simp [put, fill, hd]

end Codec

/-- One byte. -/
def u8 : Codec UInt8 1 where
  enc x _ := x
  dec f := f 0
  dec_enc _ := rfl

/-- Two bytes, least significant first. -/
def u16 : Codec UInt16 2 where
  enc x j := UInt8.ofNat (x.toNat / 256 ^ j.val)
  dec f := UInt16.ofNat ((f 0).toNat + 256 * (f 1).toNat)
  dec_enc x := by
    apply UInt16.toNat_inj.mp
    have h := x.toNat_lt
    simp only [UInt16.toNat_ofNat', UInt8.toNat_ofNat', Fin.val_zero, Fin.val_one, pow_zero, pow_one,
      Nat.div_one]
    omega

instance four_neZero : NeZero 4 := ⟨by decide⟩

/-- Four bytes, least significant first. -/
def u32 : Codec UInt32 4 where
  enc x j := UInt8.ofNat (x.toNat / 256 ^ j.val)
  dec f := UInt32.ofNat
    ((f 0).toNat + 256 * (f 1).toNat + 65536 * (f 2).toNat + 16777216 * (f 3).toNat)
  dec_enc x := by
    apply UInt32.toNat_inj.mp
    have h := x.toNat_lt
    simp only [UInt32.toNat_ofNat', UInt8.toNat_ofNat', Fin.val_zero, Fin.val_one, Fin.val_two,
      show ((3 : Fin 4) : Nat) = 3 from rfl, pow_zero, pow_one, Nat.div_one]
    omega

instance eight_neZero : NeZero 8 := ⟨by decide⟩

/-- Eight bytes, least significant first. -/
def u64 : Codec UInt64 8 where
  enc x j := UInt8.ofNat (x.toNat / 256 ^ j.val)
  dec f := UInt64.ofNat (∑ j : Fin 8, (f j).toNat * 256 ^ j.val)
  dec_enc x := by
    apply UInt64.toNat_inj.mp
    have h := x.toNat_lt
    simp only [UInt64.toNat_ofNat', UInt8.toNat_ofNat', Fin.sum_univ_eight, Fin.val_zero,
      Fin.val_one, Fin.val_two, show ((3 : Fin 8) : Nat) = 3 from rfl,
      show ((4 : Fin 8) : Nat) = 4 from rfl, show ((5 : Fin 8) : Nat) = 5 from rfl,
      show ((6 : Fin 8) : Nat) = 6 from rfl, show ((7 : Fin 8) : Nat) = 7 from rfl]
    omega

/-- A two-byte two's-complement integer. -/
def i16 : Codec Int16 2 := u16.iso Int16.toUInt16 UInt16.toInt16 (fun _ => rfl)

end ByteCodec
