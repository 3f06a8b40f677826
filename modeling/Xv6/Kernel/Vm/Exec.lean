import Xv6.Kernel.Vm.Copy

namespace Xv6.Vm

open ByteCodec Hoare List

def MAXARG : Nat := 32

/-- Pages of the user's stack in this configuration. -/
def USERSTACK : Nat := 2

def ELF_MAGIC : Nat := 0x464C457F
def ELF_PROG_LOAD : Nat := 1

/-- The number that some bytes of a list make, the least significant one first. -/
def leNat (bs : List UInt8) (off n : Nat) : Nat :=
  ((bs.drop off).take n).foldr (fun b v => b.toNat + 256 * v) 0

theorem leNat_lt (bs : List UInt8) (off n : Nat) : leNat bs off n < 2 ^ (8 * n) := by
  have hfold : ∀ l : List UInt8, l.foldr (fun b v => b.toNat + 256 * v) 0 < 2 ^ (8 * l.length) := by
    intro l
    induction l with
    | nil => decide
    | cons b l ih =>
      have hb := b.toNat_lt
      have hpow : 2 ^ (8 * (l.length + 1)) = 256 * 2 ^ (8 * l.length) := by
        rw [Nat.mul_add, Nat.pow_add, Nat.mul_comm]
      rw [foldr_cons, length_cons, hpow]
      omega
  refine (hfold _).trans_le (Nat.pow_le_pow_right (by decide) ?_)
  exact Nat.mul_le_mul_left 8 (length_take_le ..)

/-- The fields of `struct elfhdr` that `exec` reads. -/
structure Elfhdr where
  magic : Nat
  entry : Nat
  phoff : Nat
  phnum : Nat

/-- `struct proghdr`. -/
structure Proghdr where
  type : Nat
  flags : Nat
  off : Nat
  vaddr : Nat
  filesz : Nat
  memsz : Nat
  deriving DecidableEq

def Elfhdr.size : Nat := 64
def Proghdr.size : Nat := 56

def Elfhdr.ofBytes (bs : List UInt8) : Elfhdr where
  magic := leNat bs 0 4
  entry := leNat bs 24 8
  phoff := leNat bs 32 8
  phnum := leNat bs 56 2

def Proghdr.ofBytes (bs : List UInt8) : Proghdr where
  type := leNat bs 0 4
  flags := leNat bs 4 4
  off := leNat bs 8 8
  vaddr := leNat bs 16 8
  filesz := leNat bs 32 8
  memsz := leNat bs 40 8

def flags2perm (flags : Nat) : Nat :=
  (if flags &&& 1 ≠ 0 then PTE_X else 0) ||| (if flags &&& 2 ≠ 0 then PTE_W else 0)

/-- What `readi` reads of a file with the contents `ip`; `off` and `n` are of the type `uint`. -/
def readi (ip : List UInt8) (off n : Nat) : List UInt8 :=
  if ip.length < off ∨ 2 ^ 32 ≤ off + n then [] else (ip.drop off).take n

/-- The memory that `exec` has made for a program. -/
structure Loaded where
  pagetable : Nat
  sz : Nat
  entry : Nat
  sp : Nat
  argc : Nat

/-- The loop of `loadseg` over `m` pages. `walkaddr` finds nothing before `i` could wrap. -/
def loadsegLoop (pagetable va : Nat) (ip : List UInt8) (offset sz : Nat) : Nat → Nat → MemM Bool
  | 0, _ => pure true
  | m + 1, i => do
      let pa ← walkaddr pagetable ((va + i) % 2 ^ 64)
      if pa = 0 then panic .loadseg
      let n := if sz - i < PGSIZE then sz - i else PGSIZE
      modify fun s => s.setBytes pa (readi ip ((offset + i) % 2 ^ 32) n)
      if (readi ip ((offset + i) % 2 ^ 32) n).length ≠ n then pure false
      else loadsegLoop pagetable va ip offset sz m (i + PGSIZE)

/-- Whether `loadseg` returns 0. -/
def loadseg (pagetable va : Nat) (ip : List UInt8) (offset sz : Nat) : MemM Bool :=
  loadsegLoop pagetable va ip offset sz ((sz + PGSIZE - 1) / PGSIZE) 0

section Model

variable [Machine]

/-- The loop of `exec` over `n` program headers: whether it gets to the end, and the size. -/
def loadLoop (pagetable : Nat) (ip : List UInt8) : Nat → Nat → Nat → MemM (Bool × Nat)
  | 0, _, sz => pure (true, sz)
  | n + 1, off, sz =>
      let bs := readi ip off Proghdr.size
      let ph := Proghdr.ofBytes bs
      if bs.length ≠ Proghdr.size then pure (false, sz)
      else if ph.type ≠ ELF_PROG_LOAD then
        loadLoop pagetable ip n ((off + Proghdr.size) % 2 ^ 32) sz
      else if ph.memsz < ph.filesz then pure (false, sz)
      else if (ph.vaddr + ph.memsz) % 2 ^ 64 < ph.vaddr then pure (false, sz)
      else if ph.vaddr % PGSIZE ≠ 0 then pure (false, sz)
      else do
        let sz1 ← uvmalloc pagetable sz ((ph.vaddr + ph.memsz) % 2 ^ 64) (flags2perm ph.flags)
        if sz1 = 0 then pure (false, sz)
        else do
          let loaded ← loadseg pagetable ph.vaddr ip (ph.off % 2 ^ 32) (ph.filesz % 2 ^ 32)
          if loaded = false then pure (false, sz1)
          else loadLoop pagetable ip n ((off + Proghdr.size) % 2 ^ 32) sz1

/-- The loop of `exec` that pushes the strings: the stack pointer and `ustack`. -/
def pushStrings (pagetable stackbase : Nat) :
    List (List UInt8) → Nat → List Nat → MemM (Option (Nat × List Nat))
  | [], sp, ustack => pure (some (sp, ustack))
  | arg :: argv, sp, ustack =>
      if MAXARG ≤ ustack.length then pure none
      else
        let sp1 := (sp + 2 ^ 64 - (arg.length + 1)) % 2 ^ 64
        let sp2 := sp1 - sp1 % 16
        if sp2 < stackbase then pure none
        else do
          let copied ← copyout pagetable sp2 (arg ++ [0])
          if copied = false then pure none
          else pushStrings pagetable stackbase argv sp2 (ustack ++ [sp2])

/-- The label `bad` of `exec`, when there is a page table. -/
def execBad (pagetable sz : Nat) : MemM (Option Loaded) := do
  procFreepagetable pagetable sz
  pure none

/-- Pushing the array of pointers to the strings. -/
def pushArgv (pagetable entry sz stackbase sp : Nat) (ustack : List Nat) :
    MemM (Option Loaded) :=
  let sp1 := (sp + 2 ^ 64 - (ustack.length + 1) * 8) % 2 ^ 64
  let sp2 := sp1 - sp1 % 16
  if sp2 < stackbase then execBad pagetable sz
  else do
    let copied ← copyout pagetable sp2
      ((ustack ++ [0]).flatMap fun v => List.ofFn (u64.enc (UInt64.ofNat v)))
    if copied = false then execBad pagetable sz
    else pure (some ⟨pagetable, sz, entry, sp2, ustack.length⟩)

/-- `exec` from where it allocates the stack; `sz` is rounded up. -/
def execStack (pagetable entry sz : Nat) (argv : List (List UInt8)) : MemM (Option Loaded) := do
  let sz1 ← uvmalloc pagetable sz ((sz + (USERSTACK + 1) * PGSIZE) % 2 ^ 64) PTE_W
  if sz1 = 0 then execBad pagetable sz
  else do
    uvmclear pagetable (sz1 - (USERSTACK + 1) * PGSIZE)
    let pushed ← pushStrings pagetable (sz1 - USERSTACK * PGSIZE) argv sz1 []
    match pushed with
    | none => execBad pagetable sz1
    | some (sp, ustack) => pushArgv pagetable entry sz1 (sz1 - USERSTACK * PGSIZE) sp ustack

/-- `exec` up to where it commits to the new image, for a process with the given trapframe. The file
is what `namei` has found at the path. -/
def execImage (trapframe : Nat) (file : Option (List UInt8)) (argv : List (List UInt8)) :
    MemM (Option Loaded) :=
  match file with
  | none => pure none
  | some ip =>
      let elf := Elfhdr.ofBytes (readi ip 0 Elfhdr.size)
      if (readi ip 0 Elfhdr.size).length ≠ Elfhdr.size then pure none
      else if elf.magic ≠ ELF_MAGIC then pure none
      else do
        let pagetable ← procPagetable trapframe
        if pagetable = 0 then pure none
        else do
          let loaded ← loadLoop pagetable ip elf.phnum (elf.phoff % 2 ^ 32) 0
          if loaded.1 = false then execBad pagetable loaded.2
          else execStack pagetable elf.entry (PGROUNDUP loaded.2) argv

end Model

end Xv6.Vm
