import Xv6.Framework.Ring
import Xv6.Framework.Transition
import Xv6.Kernel.Param

namespace Xv6.Bio

open Ring Transition Function List

/-- `struct buf` without its sleep-lock and its links. -/
structure Buf where
  valid : Bool
  dev : Nat
  blockno : Nat
  refcnt : Nat
  data : Block

/-- A node of the LRU list: a buffer, or `&bcache.head`. -/
abbrev Node : Type := Option (Fin NBUF)

def head : Node := none

structure Bcache where
  buf : Fin NBUF → Buf
  next : Node → Node
  prev : Node → Node

inductive Panic
  | noBuffers
  | brelse
  /-- Not a panic of the source: a scan of the list that never comes back to its head. -/
  | endless
  deriving DecidableEq, Repr

def Panic.msg : Panic → String
  | .noBuffers => "bget: no buffers"
  | .brelse => "brelse"
  | .endless => ""

/-- `b->next = head.next; b->prev = &head; head.next->prev = b; head.next = b;` -/
def linkFront (c : Bcache) (b : Node) : Bcache :=
  let c := { c with next := update c.next b (c.next head) }
  let c := { c with prev := update c.prev b head }
  let c := { c with prev := update c.prev (c.next head) b }
  { c with next := update c.next head b }

/-- `b->next->prev = b->prev; b->prev->next = b->next;` -/
def unlink (c : Bcache) (b : Node) : Bcache :=
  let c := { c with prev := update c.prev (c.next b) (c.prev b) }
  { c with next := update c.next (c.prev b) (c.next b) }

def zeroed : Bcache :=
  ⟨fun _ => ⟨false, 0, 0, 0, fun _ => 0⟩, fun _ => head, fun _ => head⟩

def binit : Bcache :=
  (List.finRange NBUF).foldl (fun c i => linkFront c (some i)) zeroed

def Bcache.test (c : Bcache) (p : Buf → Bool) : Node → Bool
  | some i => p (c.buf i)
  | none => false

def Bcache.setBuf (c : Bcache) (i : Fin NBUF) (b : Buf) : Bcache :=
  { c with buf := update c.buf i b }

/-- The critical section of `bget`: the buffer it settles on, its reference already counted. -/
def bget (c : Bcache) (dev blockno : Nat) : Except Panic (Fin NBUF × Bcache) :=
  match scan c.next head (c.test fun b => b.dev = dev ∧ b.blockno = blockno) (NBUF + 1)
      (c.next head) with
  | some (some (some i)) => .ok (i, c.setBuf i { c.buf i with refcnt := (c.buf i).refcnt + 1 })
  | some _ =>
      match scan c.prev head (c.test fun b => b.refcnt = 0) (NBUF + 1) (c.prev head) with
      | some (some (some i)) =>
          .ok (i, c.setBuf i
            { c.buf i with dev := dev, blockno := blockno, valid := false, refcnt := 1 })
      | some _ => .error .noBuffers
      | none => .error .endless
  | none => .error .endless

/-- The critical section of `brelse`, after the sleep-lock has been released. -/
def brelse (c : Bcache) (i : Fin NBUF) : Bcache :=
  let c := c.setBuf i { c.buf i with refcnt := (c.buf i).refcnt - 1 }
  if (c.buf i).refcnt = 0 then linkFront (unlink c (some i)) (some i) else c

def bpin (c : Bcache) (i : Fin NBUF) : Bcache :=
  c.setBuf i { c.buf i with refcnt := (c.buf i).refcnt + 1 }

def bunpin (c : Bcache) (i : Fin NBUF) : Bcache :=
  c.setBuf i { c.buf i with refcnt := (c.buf i).refcnt - 1 }

/-- The links visit the buffers `xs`, most recently used first, and come back to the head. -/
def Bcache.Lists (c : Bcache) (xs : List (Fin NBUF)) : Prop :=
  IsRing c.next c.prev head (xs.map some)

variable {c : Bcache} {xs : List (Fin NBUF)}

theorem Bcache.Lists.nodup (h : c.Lists xs) : xs.Nodup :=
  (nodup_cons.mp (IsRing.nodup h)).2.of_map some

variable {i : Fin NBUF}

theorem linkFront_lists (h : c.Lists xs)
    (hi : i ∉ xs) : (linkFront c (some i)).Lists (i :: xs) := by
  have hx : some i ∉ head :: xs.map some := by simp [head, hi]
  exact IsRing.insert h hx

theorem unlink_lists {ys : List (Fin NBUF)}
    (h : c.Lists (xs ++ i :: ys)) : (unlink c (some i)).Lists (xs ++ ys) := by
  unfold Bcache.Lists at *
  rw [map_append, map_cons] at h
  have hu := h.unlink
  -- a buffer is not its own neighbour, so the first assignment leaves its own link alone
  have hne : some i ≠ c.next (some i) := by
    intro he
    obtain ⟨_, hr⟩ := seg_append.mp h.seg
    have hf := seg_first hr
    rw [← he] at hf
    have hn := h.nodup
    simp only [nodup_cons, nodup_append, mem_append, mem_cons] at hn hf
    simp only [head, mem_map, not_mem_nil, or_false, reduceCtorEq] at hf
    obtain ⟨_, _, ⟨hin, _⟩, _⟩ := hn
    exact hin (by simpa using hf)
  rw [map_append]
  simpa [unlink, update_of_ne hne] using hu

theorem moveFront_lists (h : c.Lists xs)
    (hi : i ∈ xs) : (linkFront (unlink c (some i)) (some i)).Lists (i :: xs.erase i) := by
  obtain ⟨l, r, rfl⟩ := append_of_mem hi
  have hn := h.nodup
  simp only [nodup_append, nodup_cons, mem_cons] at hn
  obtain ⟨_, ⟨hir, _⟩, hd⟩ := hn
  have hil : i ∉ l := fun hm => hd i hm i (Or.inl rfl) rfl
  rw [erase_append_right _ hil, erase_cons_head]
  exact linkFront_lists (unlink_lists h) (by simp [hil, hir])

@[simp] theorem linkFront_buf (c : Bcache) (b : Node) : (linkFront c b).buf = c.buf := rfl

theorem binit_lists : ∃ xs, binit.Lists xs ∧ ∀ i, i ∈ xs := by
  have build (is : List (Fin NBUF)) (c : Bcache) (xs : List (Fin NBUF)) (hc : c.Lists xs)
      (hd : ∀ i ∈ is, i ∉ xs) (hn : is.Nodup) :
      (is.foldl (fun c i => linkFront c (some i)) c).Lists (is.reverse ++ xs) := by
    induction is generalizing c xs with
    | nil => exact hc
    | cons i is ih =>
      obtain ⟨hi, hn⟩ := nodup_cons.mp hn
      have hd' : ∀ j ∈ is, j ∉ i :: xs := by
        intro j hj hm
        rcases mem_cons.mp hm with rfl | hm
        · exact hi hj
        · exact hd j (by simp [hj]) hm
      have h := ih _ _ (linkFront_lists hc (hd i (by simp))) hd' hn
      simpa using h
  have h0 : zeroed.Lists [] := ⟨⟨rfl, rfl⟩, by simp⟩
  refine ⟨_, build (List.finRange NBUF) zeroed [] h0 (by simp) (nodup_finRange _), ?_⟩
  intro i
  simp

theorem binit_buf (i : Fin NBUF) : binit.buf i = ⟨false, 0, 0, 0, fun _ => 0⟩ := by
  have keep (is : List (Fin NBUF)) (c : Bcache) :
      (is.foldl (fun c i => linkFront c (some i)) c).buf = c.buf := by
    induction is generalizing c with
    | nil => rfl
    | cons j is ih => simp [ih]
  rw [binit, keep]
  rfl

end Xv6.Bio
