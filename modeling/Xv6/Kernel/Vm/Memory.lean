import Xv6.Framework.ByteCodec
import Xv6.Framework.Hoare
import Xv6.Kernel.Vm.Layout

namespace Xv6.Vm

open ByteCodec Hoare

inductive Panic
  | kfree
  | walk
  | mappagesVa
  | mappagesSizeAlign
  | mappagesSize
  | mappagesRemap
  | uvmunmapAlign
  | uvmunmapWalk
  | uvmunmapNotMapped
  | uvmunmapNotLeaf
  | freewalkLeaf
  | uvmcopyPte
  | uvmcopyPage
  | uvmclear
  | uvmfirst
  | loadseg
  | filedup
  | fileclose
  | initExiting
  deriving DecidableEq, Repr

def Panic.msg : Panic → String
  | .kfree => "kfree"
  | .walk => "walk"
  | .mappagesVa => "mappages: va not aligned"
  | .mappagesSizeAlign => "mappages: size not aligned"
  | .mappagesSize => "mappages: size"
  | .mappagesRemap => "mappages: remap"
  | .uvmunmapAlign => "uvmunmap: not aligned"
  | .uvmunmapWalk => "uvmunmap: walk"
  | .uvmunmapNotMapped => "uvmunmap: not mapped"
  | .uvmunmapNotLeaf => "uvmunmap: not a leaf"
  | .freewalkLeaf => "freewalk: leaf"
  | .uvmcopyPte => "uvmcopy: pte should exist"
  | .uvmcopyPage => "uvmcopy: page not present"
  | .uvmclear => "uvmclear"
  | .uvmfirst => "uvmfirst: more than a page"
  | .loadseg => "loadseg: address should exist"
  | .filedup => "filedup"
  | .fileclose => "fileclose"
  | .initExiting => "init exiting"

/-- How the kernel can fail to return: a panic, or a recursion that the model cuts off. -/
inductive Stop
  | panic (p : Panic)
  | endless
  deriving DecidableEq, Repr

abbrev Page : Type := Fin PGSIZE → UInt8

/-- Physical memory by page number, and `kmem.freelist`. `fails` says at which calls to come `kalloc`
is to find no memory, even if there is some. -/
structure Mem where
  page : Nat → Page
  freelist : Nat
  fails : List Bool

abbrev MemM (α : Type) : Type := Prog Mem Stop α

def panic {α : Type} (p : Panic) : MemM α := throw (.panic p)

namespace Mem

def setPage (s : Mem) (pa : Nat) (pg : Page) : Mem :=
  { s with page := Function.update s.page (pa / PGSIZE) pg }

def word (s : Mem) (pa i : Nat) : Nat := (u64.get (s.page (pa / PGSIZE)) i).toNat

def setWord (s : Mem) (pa i v : Nat) : Mem :=
  s.setPage pa (u64.put (s.page (pa / PGSIZE)) i (UInt64.ofNat v))

/-- `memset(pa, c, PGSIZE)`. -/
def memset (s : Mem) (pa : Nat) (c : UInt8) : Mem := s.setPage pa fun _ => c

def byte (s : Mem) (a : Nat) : UInt8 :=
  s.page (a / PGSIZE) ⟨a % PGSIZE, Nat.mod_lt _ (NeZero.pos PGSIZE)⟩

/-- `memmove` of `n` bytes at `a` to somewhere else. -/
def bytes (s : Mem) (a n : Nat) : List UInt8 := (List.range n).map fun j => s.byte (a + j)

/-- `memmove` of other bytes to `a`. -/
def setBytes (s : Mem) (a : Nat) (bs : List UInt8) : Mem :=
  { s with page := fun k i =>
      if a ≤ k * PGSIZE + i ∧ k * PGSIZE + i - a < bs.length then bs.getD (k * PGSIZE + i - a) 0
      else s.page k i }

end Mem

section Kalloc

variable [Machine]

def kfree (pa : Nat) : MemM Unit := do
  if pa % PGSIZE ≠ 0 ∨ pa < Machine.kend ∨ PHYSTOP ≤ pa then panic .kfree
  modify fun s => s.memset pa 1
  modify fun s => { s.setWord pa 0 s.freelist with freelist := pa }

def kalloc : MemM Nat := do
  let s ← get
  let r := if s.fails.head? = some true then 0 else s.freelist
  set { s with fails := s.fails.tail }
  if r ≠ 0 then
    modify fun s => { s with freelist := s.word r 0 }
    modify fun s => s.memset r 5
  pure r

def freerange (paStart paEnd : Nat) : MemM Unit :=
  forUpto (fun i => kfree (PGROUNDUP paStart + i * PGSIZE)) ((paEnd - PGROUNDUP paStart) / PGSIZE)

def kinit : MemM Unit := freerange Machine.kend PHYSTOP

end Kalloc

/-- The loop of `walk`, from a page-table page of the given level. -/
def walkLoop (va : Nat) (alloc : Bool) : Nat → Nat → MemM (Option Nat)
  | 0, pagetable => pure (some pagetable)
  | level + 1, pagetable => do
      let s ← get
      let pte := s.word pagetable (PX (level + 1) va)
      if Flag pte PTE_V then walkLoop va alloc level (PTE2PA pte)
      else if alloc = false then pure none
      else do
        let child ← kalloc
        if child = 0 then pure none
        else do
          modify fun s => s.memset child 0
          modify fun s => s.setWord pagetable (PX (level + 1) va) (PA2PTE child ||| PTE_V)
          walkLoop va alloc level child

/-- The address of a page-table entry is that of its page and the index. -/
def walk (pagetable va : Nat) (alloc : Bool) : MemM (Option (Nat × Nat)) := do
  if MAXVA ≤ va then panic .walk
  let leaf ← walkLoop va alloc 2 pagetable
  pure (leaf.map fun p => (p, PX 0 va))

def walkaddr (pagetable va : Nat) : MemM Nat := do
  if MAXVA ≤ va then pure 0
  else do
    let pte ← walk pagetable va false
    match pte with
    | none => pure 0
    | some (p, i) => do
        let s ← get
        let pte := s.word p i
        if ¬ Flag pte PTE_V then pure 0
        else if ¬ Flag pte PTE_U then pure 0
        else pure (PTE2PA pte)

/-- The loop of `mappages`, which goes through `n` pages. `walk` panics before `a` could wrap. -/
def mappagesLoop (pagetable perm : Nat) : Nat → Nat → Nat → MemM Bool
  | 0, _, _ => pure true
  | n + 1, a, pa => do
      let pte ← walk pagetable a true
      match pte with
      | none => pure false
      | some (p, i) => do
          let s ← get
          if Flag (s.word p i) PTE_V then panic .mappagesRemap
          set (s.setWord p i (PA2PTE pa ||| perm ||| PTE_V))
          mappagesLoop pagetable perm n (a + PGSIZE) ((pa + PGSIZE) % 2 ^ 64)

/-- Whether `mappages` returns 0. -/
def mappages (pagetable va size pa perm : Nat) : MemM Bool := do
  if va % PGSIZE ≠ 0 then panic .mappagesVa
  if size % PGSIZE ≠ 0 then panic .mappagesSizeAlign
  if size = 0 then panic .mappagesSize
  mappagesLoop pagetable perm (size / PGSIZE) va pa

section User

variable [Machine]

def uvmunmapLoop (pagetable : Nat) (doFree : Bool) : Nat → Nat → MemM Unit
  | 0, _ => pure ()
  | n + 1, a => do
      let pte ← walk pagetable a false
      match pte with
      | none => panic .uvmunmapWalk
      | some (p, i) => do
          let s ← get
          let pte := s.word p i
          if ¬ Flag pte PTE_V then panic .uvmunmapNotMapped
          if PTE_FLAGS pte = PTE_V then panic .uvmunmapNotLeaf
          if doFree then kfree (PTE2PA pte)
          modify fun s => s.setWord p i 0
          uvmunmapLoop pagetable doFree n (a + PGSIZE)

/-- `walk` panics before `a` could wrap, so the loop goes up to the end as a `uint64`. -/
def uvmunmap (pagetable va npages : Nat) (doFree : Bool) : MemM Unit := do
  if va % PGSIZE ≠ 0 then panic .uvmunmapAlign
  uvmunmapLoop pagetable doFree
    (((va + npages * PGSIZE) % 2 ^ 64 - va + PGSIZE - 1) / PGSIZE) va

def uvmcreate : MemM Nat := do
  let pagetable ← kalloc
  if pagetable ≠ 0 then modify fun s => s.memset pagetable 0
  pure pagetable

/-- An `int` with the value `n`, up to a multiple of `2 ^ 32`, as a `uint64`. -/
def intToUint64 (n : Nat) : Nat :=
  if n % 2 ^ 32 < 2 ^ 31 then n % 2 ^ 32 else 2 ^ 64 - 2 ^ 32 + n % 2 ^ 32

def uvmdealloc (pagetable oldsz newsz : Nat) : MemM Nat := do
  if oldsz ≤ newsz then pure oldsz
  else do
    if PGROUNDUP newsz < PGROUNDUP oldsz then
      uvmunmap pagetable (PGROUNDUP newsz)
        (intToUint64 ((PGROUNDUP oldsz - PGROUNDUP newsz) / PGSIZE)) true
    pure newsz

/-- The loop of `uvmalloc` over `n` pages; whether it got to the end. -/
def uvmallocLoop (pagetable oldsz xperm : Nat) : Nat → Nat → MemM Bool
  | 0, _ => pure true
  | n + 1, a => do
      let mem ← kalloc
      if mem = 0 then do
        let _ ← uvmdealloc pagetable a oldsz
        pure false
      else do
        modify fun s => s.memset mem 0
        let mapped ← mappages pagetable a PGSIZE mem (PTE_R ||| PTE_U ||| xperm)
        if mapped = false then do
          kfree mem
          let _ ← uvmdealloc pagetable a oldsz
          pure false
        else uvmallocLoop pagetable oldsz xperm n (a + PGSIZE)

def uvmalloc (pagetable oldsz newsz xperm : Nat) : MemM Nat := do
  if newsz < oldsz then pure oldsz
  else do
    let oldsz := PGROUNDUP oldsz
    let done ← uvmallocLoop pagetable oldsz xperm ((newsz - oldsz + PGSIZE - 1) / PGSIZE) oldsz
    pure (if done then newsz else 0)

/-- The recursion goes down the levels of the tree, of which there are at most `depth`. -/
def freewalk : Nat → Nat → MemM Unit
  | 0, _ => throw .endless
  | depth + 1, pagetable => do
      forUpto (fun i => do
        let s ← get
        let pte := s.word pagetable i
        if Flag pte PTE_V ∧ ¬ Flag pte (PTE_R ||| PTE_W ||| PTE_X) then do
          freewalk depth (PTE2PA pte)
          modify fun s => s.setWord pagetable i 0
        else if Flag pte PTE_V then panic .freewalkLeaf) 512
      kfree pagetable

def uvmfree (pagetable sz : Nat) : MemM Unit := do
  if 0 < sz then uvmunmap pagetable 0 (PGROUNDUP sz / PGSIZE) true
  freewalk 3 pagetable

/-- The loop of `uvmcopy` over `n` pages; whether `uvmcopy` returns 0. -/
def uvmcopyLoop (old new : Nat) : Nat → Nat → MemM Bool
  | 0, _ => pure true
  | n + 1, i => do
      let pte ← walk old i false
      match pte with
      | none => panic .uvmcopyPte
      | some (p, j) => do
          let s ← get
          let pte := s.word p j
          if ¬ Flag pte PTE_V then panic .uvmcopyPage
          let mem ← kalloc
          if mem = 0 then do
            uvmunmap new 0 (i / PGSIZE) true
            pure false
          else do
            modify fun s => s.setPage mem (s.page (PTE2PA pte / PGSIZE))
            let mapped ← mappages new i PGSIZE mem (PTE_FLAGS pte)
            if mapped = false then do
              kfree mem
              uvmunmap new 0 (i / PGSIZE) true
              pure false
            else uvmcopyLoop old new n (i + PGSIZE)

def uvmcopy (old new sz : Nat) : MemM Bool :=
  uvmcopyLoop old new ((sz + PGSIZE - 1) / PGSIZE) 0

def uvmclear (pagetable va : Nat) : MemM Unit := do
  let pte ← walk pagetable va false
  match pte with
  | none => panic .uvmclear
  | some (p, i) => modify fun s => s.setWord p i (s.word p i &&& (2 ^ 64 - 1 - PTE_U))

end User

/-- The loop of `copyout`; each round copies at least one byte, and so there are no more rounds than
bytes. -/
def copyoutLoop (pagetable : Nat) : Nat → Nat → List UInt8 → MemM Bool
  | 0, _, _ => pure true
  | n + 1, dstva, src =>
      if src.length = 0 then pure true
      else do
        let va0 := PGROUNDDOWN dstva
        if MAXVA ≤ va0 then pure false
        else do
          let pte ← walk pagetable va0 false
          match pte with
          | none => pure false
          | some (p, i) => do
              let s ← get
              let pte := s.word p i
              if ¬ Flag pte PTE_V ∨ ¬ Flag pte PTE_U ∨ ¬ Flag pte PTE_W then pure false
              else do
                let m := min (PGSIZE - (dstva - va0)) src.length
                modify fun s => s.setBytes (PTE2PA pte + (dstva - va0)) (src.take m)
                copyoutLoop pagetable n ((va0 + PGSIZE) % 2 ^ 64) (src.drop m)

/-- `copyout` of the bytes `src`; whether it returns 0. -/
def copyout (pagetable dstva : Nat) (src : List UInt8) : MemM Bool :=
  copyoutLoop pagetable src.length dstva src

/-- The loop of `copyin`; the result is what has been stored at `dst`. -/
def copyinLoop (pagetable : Nat) : Nat → Nat → Nat → List UInt8 → MemM (Option (List UInt8))
  | 0, _, _, dst => pure (some dst)
  | n + 1, srcva, len, dst =>
      if len = 0 then pure (some dst)
      else do
        let va0 := PGROUNDDOWN srcva
        let pa0 ← walkaddr pagetable va0
        if pa0 = 0 then pure none
        else do
          let s ← get
          let m := min (PGSIZE - (srcva - va0)) len
          copyinLoop pagetable n ((va0 + PGSIZE) % 2 ^ 64) (len - m)
            (dst ++ s.bytes (pa0 + (srcva - va0)) m)

/-- `copyin` of `len` bytes; `none` if it returns -1. -/
def copyin (pagetable srcva len : Nat) : MemM (Option (List UInt8)) :=
  copyinLoop pagetable len srcva len []

/-- The inner loop of `copyinstr`, over `n` bytes at `p`: what it has stored, and whether it came to
the end of the string. -/
def strLoop (s : Mem) : Nat → Nat → List UInt8 → List UInt8 × Bool
  | 0, _, dst => (dst, false)
  | n + 1, p, dst =>
      if s.byte p = 0 then (dst ++ [0], true) else strLoop s n (p + 1) (dst ++ [s.byte p])

/-- The outer loop of `copyinstr`. -/
def copyinstrLoop (pagetable : Nat) : Nat → Nat → Nat → List UInt8 → MemM (Option (List UInt8))
  | 0, _, _, _ => pure none
  | n + 1, srcva, max, dst =>
      if max = 0 then pure none
      else do
        let va0 := PGROUNDDOWN srcva
        let pa0 ← walkaddr pagetable va0
        if pa0 = 0 then pure none
        else do
          let s ← get
          let m := min (PGSIZE - (srcva - va0)) max
          let r := strLoop s m (pa0 + (srcva - va0)) dst
          if r.2 then pure (some r.1)
          else copyinstrLoop pagetable n ((va0 + PGSIZE) % 2 ^ 64) (max - m) r.1

/-- `copyinstr`; `none` if it returns -1, and otherwise the string with the NUL. -/
def copyinstr (pagetable srcva max : Nat) : MemM (Option (List UInt8)) :=
  copyinstrLoop pagetable max srcva max []

end Xv6.Vm
