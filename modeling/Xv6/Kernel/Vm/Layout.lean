import Mathlib

namespace Xv6.Vm

open Nat

def PGSIZE : Nat := 4096

instance PGSIZE.neZero : NeZero PGSIZE := ⟨by decide⟩

def MAXVA : Nat := 1 <<< (9 + 9 + 9 + 12 - 1)

def TRAMPOLINE : Nat := MAXVA - PGSIZE
def TRAPFRAME : Nat := TRAMPOLINE - PGSIZE

theorem top_pages : TRAMPOLINE = (2 ^ 26 - 1) * 4096 ∧ TRAPFRAME = (2 ^ 26 - 2) * 4096 ∧
    MAXVA = 2 ^ 26 * 4096 := by decide

def KERNBASE : Nat := 0x80000000
def PHYSTOP : Nat := KERNBASE + 128 * 1024 * 1024

/-- Rounding of a `uint64` up and down to a multiple of the page size. -/
def PGROUNDUP (sz : Nat) : Nat := (sz + PGSIZE - 1) % 2 ^ 64 / PGSIZE * PGSIZE

def PGROUNDDOWN (a : Nat) : Nat := a / PGSIZE * PGSIZE

def PTE_V : Nat := 1 <<< 0
def PTE_R : Nat := 1 <<< 1
def PTE_W : Nat := 1 <<< 2
def PTE_X : Nat := 1 <<< 3
def PTE_U : Nat := 1 <<< 4

/-- A physical address at the place it has in a page-table entry. -/
def PA2PTE (pa : Nat) : Nat := pa >>> 12 <<< 10

def PTE2PA (pte : Nat) : Nat := pte >>> 10 <<< 12 % 2 ^ 64

def PTE_FLAGS (pte : Nat) : Nat := pte &&& 0x3FF

/-- The index of 9 bits into the page-table page of a level. -/
def PX (level va : Nat) : Nat := va >>> (12 + 9 * level) &&& 0x1FF

/-- The linker's addresses: the first one after the kernel, and the page of `trampoline.S`. -/
class Machine where
  kend : Nat
  trampoline : Nat
  kernbase_le : KERNBASE ≤ kend
  le_phystop : kend ≤ PHYSTOP
  aligned : trampoline % PGSIZE = 0
  kernbase_le_trampoline : KERNBASE ≤ trampoline
  trampoline_lt : trampoline < kend

/-- One of the flags is set in an entry, as in `*pte & PTE_V`. -/
def Flag (pte bit : Nat) : Prop := pte &&& bit ≠ 0

instance Flag.decidable (pte bit : Nat) : Decidable (Flag pte bit) :=
  inferInstanceAs (Decidable (_ ≠ _))

theorem PTE2PA_eq (pte : Nat) : PTE2PA pte = pte / 1024 * 4096 % 2 ^ 64 := by
  rw [PTE2PA, shiftLeft_eq, shiftRight_eq_div_pow]

theorem PA2PTE_eq (pa : Nat) : PA2PTE pa = pa / 4096 * 1024 := by
  rw [PA2PTE, shiftLeft_eq, shiftRight_eq_div_pow]

theorem PTE_FLAGS_eq (pte : Nat) : PTE_FLAGS pte = pte % 1024 := and_two_pow_sub_one_eq_mod pte 10

theorem PX_eq (level va : Nat) : PX level va = va / 2 ^ (12 + 9 * level) % 512 := by
  rw [PX, shiftRight_eq_div_pow]
  exact and_two_pow_sub_one_eq_mod _ 9

theorem PX_lt (level va : Nat) : PX level va < 512 := by
  rw [PX_eq]
  exact mod_lt _ (by decide)

theorem PTE2PA_aligned (pte : Nat) : PTE2PA pte % PGSIZE = 0 := by
  rw [PTE2PA_eq, PGSIZE]
  omega

/-- Two addresses have the same three indices just if they lie in the same page. -/
theorem PX_inj {va va' : Nat} (h : va < 2 ^ 39) (h' : va' < 2 ^ 39) :
    PX 2 va = PX 2 va' ∧ PX 1 va = PX 1 va' ∧ PX 0 va = PX 0 va' ↔
      va / PGSIZE = va' / PGSIZE := by
  simp only [PX_eq, PGSIZE]
  omega

variable {pte k : Nat}

theorem flag_two_pow : Flag pte (2 ^ k) ↔ pte.testBit k = true := by
  rw [Flag, and_two_pow]
  cases pte.testBit k <;> simp

variable {pa perm : Nat}

/-- The entry that `mappages` writes is made of the page's address and of the flags. -/
theorem entry_eq (hperm : perm < 1024) :
    PA2PTE pa ||| perm ||| PTE_V = pa / 4096 * 1024 + (perm ||| PTE_V) := by
  have hlt : perm ||| PTE_V < 2 ^ 10 := or_lt_two_pow hperm (by decide)
  rw [Nat.or_assoc, PA2PTE_eq, Nat.mul_comm]
  exact (two_pow_add_eq_or_of_lt hlt _).symm

theorem or_valid_lt (hperm : perm < 1024) : perm ||| PTE_V < 1024 :=
  or_lt_two_pow (n := 10) hperm (by decide)

theorem entry_lt (hpa : pa < 2 ^ 64) (hperm : perm < 1024) :
    PA2PTE pa ||| perm ||| PTE_V < 2 ^ 64 := by
  have := or_valid_lt hperm
  rw [entry_eq hperm]
  omega

theorem PTE2PA_entry (hpa : pa < 2 ^ 64) (haligned : pa % PGSIZE = 0)
    (hperm : perm < 1024) : PTE2PA (PA2PTE pa ||| perm ||| PTE_V) = pa := by
  have := or_valid_lt hperm
  rw [PTE2PA_eq, entry_eq hperm]
  rw [PGSIZE] at haligned
  omega

theorem PTE_FLAGS_entry (hperm : perm < 1024) :
    PTE_FLAGS (PA2PTE pa ||| perm ||| PTE_V) = perm ||| PTE_V := by
  have := or_valid_lt hperm
  rw [PTE_FLAGS_eq, entry_eq hperm]
  omega

/-- A flag of an entry is a flag of its lowest ten bits. -/
theorem flag_flags (hk : k < 10) : Flag (PTE_FLAGS pte) (2 ^ k) ↔ Flag pte (2 ^ k) := by
  rw [flag_two_pow, flag_two_pow, PTE_FLAGS_eq, testBit_mod_two_pow (j := 10)]
  simp [hk]

theorem PTE_FLAGS_lt (pte : Nat) : PTE_FLAGS pte < 1024 := by
  rw [PTE_FLAGS_eq]
  exact mod_lt _ (by decide)

theorem flag_valid {x : Nat} : Flag (x ||| PTE_V) PTE_V := by
  have : Flag (x ||| 2 ^ 0) (2 ^ 0) := by
    rw [flag_two_pow, testBit_or]
    simp
  exact this

theorem flags_or_valid (h : Flag pte PTE_V) : PTE_FLAGS pte ||| PTE_V = PTE_FLAGS pte := by
  have hv : (PTE_FLAGS pte).testBit 0 = true := by
    rw [← flag_two_pow, flag_flags (by decide)]
    exact h
  refine eq_of_testBit_eq fun i => ?_
  rw [testBit_or, show PTE_V = 2 ^ 0 from rfl, testBit_two_pow]
  by_cases hi : 0 = i
  · subst hi
    simp [hv]
  · simp [hi]

theorem flag_or_valid {x : Nat} (hk : k ≠ 0) : Flag (x ||| PTE_V) (2 ^ k) ↔ Flag x (2 ^ k) := by
  have h1 : PTE_V.testBit k = false := by
    rw [show PTE_V = 2 ^ 0 from rfl, testBit_two_pow]
    simp [hk.symm]
  rw [flag_two_pow, flag_two_pow, testBit_or, h1, Bool.or_false]

theorem flag_entry (hperm : perm < 1024) (hk : k ≠ 0) (hk' : k < 10) :
    Flag (PA2PTE pa ||| perm ||| PTE_V) (2 ^ k) ↔ Flag perm (2 ^ k) := by
  rw [← flag_flags hk', PTE_FLAGS_entry hperm, flag_or_valid hk]

theorem not_leaf_of_flags (h : PTE_FLAGS pte = PTE_V) : ¬ Flag pte (PTE_R ||| PTE_W ||| PTE_X) := by
  have hmask : pte &&& (PTE_R ||| PTE_W ||| PTE_X) =
      PTE_FLAGS pte &&& (PTE_R ||| PTE_W ||| PTE_X) := by
    rw [PTE_FLAGS, Nat.and_assoc]
    rfl
  rw [Flag, hmask, h]
  decide

theorem PTE_FLAGS_child (pa : Nat) : PTE_FLAGS (PA2PTE pa ||| PTE_V) = PTE_V := by
  have h : PTE_FLAGS (PA2PTE pa ||| 0 ||| PTE_V) = 0 ||| PTE_V := PTE_FLAGS_entry (by decide)
  rwa [or_zero, zero_or] at h

theorem PTE2PA_child (hpa : pa < 2 ^ 64) (haligned : pa % PGSIZE = 0) :
    PTE2PA (PA2PTE pa ||| PTE_V) = pa := by
  have h : PTE2PA (PA2PTE pa ||| 0 ||| PTE_V) = pa := PTE2PA_entry hpa haligned (by decide)
  rwa [or_zero] at h

theorem child_lt (hpa : pa < 2 ^ 64) : PA2PTE pa ||| PTE_V < 2 ^ 64 := by
  have h : PA2PTE pa ||| 0 ||| PTE_V < 2 ^ 64 := entry_lt hpa (by decide)
  rwa [or_zero] at h

theorem userMask_testBit : ∀ i < 64, (2 ^ 64 - 1 - PTE_U).testBit i = decide (i ≠ 4) := by
  decide

theorem testBit_clear_user {i : Nat} (h : pte < 2 ^ 64) (hi : i ≠ 4) :
    (pte &&& (2 ^ 64 - 1 - PTE_U)).testBit i = pte.testBit i := by
  rw [testBit_and]
  by_cases hlt : i < 64
  · rw [userMask_testBit i hlt]
    simp [hi]
  · have hpow : 2 ^ 64 ≤ 2 ^ i := Nat.pow_le_pow_right (by decide) (by omega)
    rw [testBit_lt_two_pow (h.trans_le hpow), Bool.false_and]

theorem flag_clear_user (h : pte < 2 ^ 64) (hk : k ≠ 4) :
    Flag (pte &&& (2 ^ 64 - 1 - PTE_U)) (2 ^ k) ↔ Flag pte (2 ^ k) := by
  rw [flag_two_pow, flag_two_pow, testBit_clear_user h hk]

theorem PTE2PA_clear_user (h : pte < 2 ^ 64) :
    PTE2PA (pte &&& (2 ^ 64 - 1 - PTE_U)) = PTE2PA pte := by
  have hdiv : (pte &&& (2 ^ 64 - 1 - PTE_U)) / 2 ^ 10 = pte / 2 ^ 10 := by
    refine eq_of_testBit_eq fun i => ?_
    rw [testBit_div_two_pow, testBit_div_two_pow, testBit_clear_user h (by omega)]
  rw [PTE2PA_eq, PTE2PA_eq, show 1024 = 2 ^ 10 from rfl, hdiv]

theorem not_flag_zero (bit : Nat) : ¬ Flag 0 bit := by
  simp [Flag]

end Xv6.Vm
