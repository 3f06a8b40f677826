import Xv6.Framework.Counting
import Xv6.Kernel.Bio.Lru
import Xv6.Kernel.Log.Commit

namespace Xv6.Cached

open Bio Log Function Option

instance (L : LogArea) (b : Nat) : Decidable (L.Home b) := inferInstanceAs (Decidable (_ ∨ _))

/-- What a process has to do with a buffer: `bget` has counted it (`waiting`), it has the
sleep-lock (`locked`), `bread` has returned (`held`), it has changed the data since the last
`log_write` or `bwrite` (`dirty`), `brelse` has dropped the sleep-lock (`leaving`). -/
inductive Hold
  | none
  | waiting
  | locked
  | held
  | dirty
  | leaving
  deriving DecidableEq, Repr

def Hold.count : Hold → Nat
  | .none => 0
  | _ => 1

def Hold.Locks (k : Hold) : Prop := k = .locked ∨ k = .held ∨ k = .dirty

instance (k : Hold) : Decidable k.Locks := inferInstanceAs (Decidable (_ ∨ _))

def Hold.Has (k : Hold) : Prop := k = .held ∨ k = .dirty

instance (k : Hold) : Decidable k.Has := inferInstanceAs (Decidable (_ ∨ _))

variable {k : Hold}

theorem Hold.Has.locks (h : k.Has) : k.Locks := Or.inr h

theorem Hold.Locks.ne_none (h : k.Locks) : k ≠ .none := by
  rcases h with rfl | rfl | rfl <;> simp

/-- The buffers, their users, the pins of the log and the disk. As history: `latest`, the
contents last passed to `log_write` for each block, and `committed`, what `latest` was when a
log header was last written. -/
structure Cache (P : Type) where
  buf : Fin NBUF → Buf
  hold : Fin NBUF → P → Hold
  pins : Fin NBUF → Nat
  disk : Disk
  latest : Disk
  committed : Disk

/-- The critical section of `bget` settling on buffer `i`: it holds the block, or no buffer does
and it is free. -/
def bgetAt (dev b : Nat) (i : Fin NBUF) (buf : Fin NBUF → Buf) : Option (Fin NBUF → Buf) :=
  if (buf i).dev = dev ∧ (buf i).blockno = b then
    some (update buf i { buf i with refcnt := (buf i).refcnt + 1 })
  else if (∀ j, ¬ ((buf j).dev = dev ∧ (buf j).blockno = b)) ∧ (buf i).refcnt = 0 then
    some (update buf i
      { buf i with dev := dev, blockno := b, valid := false, refcnt := 1 })
  else none

/-- The list scans of `bget` make one of the choices `bgetAt` allows. -/
theorem bget_refines {c c' : Bcache} {xs : List (Fin NBUF)} (h : c.Lists xs) (hall : ∀ i, i ∈ xs)
    {dev b : Nat} {i : Fin NBUF} (hb : bget c dev b = .ok (i, c')) :
    bgetAt dev b i c.buf = some c'.buf := by
  rcases bget_cases h hall dev b with ⟨j, hj, he⟩ | ⟨hmiss, j, hv, he⟩ | ⟨_, _, he⟩
  · rw [he] at hb
    cases hb
    rw [bgetAt, if_pos hj]
    rfl
  · rw [he] at hb
    cases hb
    have hz : (c.buf i).refcnt = 0 := by simpa using List.find?_some hv
    rw [bgetAt, if_neg (hmiss i), if_pos ⟨hmiss, hz⟩]
    rfl
  · rw [he] at hb
    cases hb

namespace Cache

variable {P : Type} [DecidableEq P]

/-- Replaces buffer `i` and what `p` has to do with it. -/
def put (c : Cache P) (i : Fin NBUF) (b : Buf) (p : P) (k : Hold) : Cache P :=
  { c with
    buf := update c.buf i b
    hold := update c.hold i (update (c.hold i) p k) }

/-- A process that already has the block would wait for itself forever. -/
def bget (c : Cache P) (dev b : Nat) (p : P) (i : Fin NBUF) : Option (Cache P) :=
  if c.hold i p = .none then
    (bgetAt dev b i c.buf).map fun buf => c.put i (buf i) p .waiting
  else none

def acquiresleep [Fintype P] (c : Cache P) (p : P) (i : Fin NBUF) : Option (Cache P) :=
  if c.hold i p = .waiting ∧ ∀ q, ¬ (c.hold i q).Locks then some (c.put i (c.buf i) p .locked)
  else none

/-- The rest of `bread`: read the disk unless the buffer is valid, and return. -/
def fill (c : Cache P) (p : P) (i : Fin NBUF) : Option (Cache P) :=
  if c.hold i p = .locked then
    if (c.buf i).valid then some (c.put i (c.buf i) p .held)
    else some (c.put i { c.buf i with data := c.disk (c.buf i).blockno, valid := true } p .held)
  else none

def modify (c : Cache P) (p : P) (i : Fin NBUF) (data : Block) : Option (Cache P) :=
  if (c.hold i p).Has then some (c.put i { c.buf i with data := data } p .dirty) else none

/-- `brelse` up to `releasesleep`; whoever changed the data has passed it on before. -/
def releasesleep (c : Cache P) (p : P) (i : Fin NBUF) : Option (Cache P) :=
  if c.hold i p = .held then some (c.put i (c.buf i) p .leaving) else none

/-- The critical section of `brelse`. -/
def drop (c : Cache P) (p : P) (i : Fin NBUF) : Option (Cache P) :=
  if c.hold i p = .leaving then
    some (c.put i { c.buf i with refcnt := (c.buf i).refcnt - 1 } p .none)
  else none

/-- The steps of `bread` and `brelse`. -/
inductive Touch
  | bget (b : Nat)
  | acquiresleep
  | fill
  | releasesleep
  | drop
  deriving DecidableEq, Repr

/-- What `p` has to do with the buffer before and after. -/
def Touch.pre : Touch → Hold
  | .bget _ => .none
  | .acquiresleep => .waiting
  | .fill => .locked
  | .releasesleep => .held
  | .drop => .leaving

def Touch.post : Touch → Hold
  | .bget _ => .waiting
  | .acquiresleep => .locked
  | .fill => .held
  | .releasesleep => .leaving
  | .drop => .none

def touch [Fintype P] (dev : Nat) (p : P) (i : Fin NBUF) (c : Cache P) : Touch → Option (Cache P)
  | .bget b => c.bget dev b p i
  | .acquiresleep => c.acquiresleep p i
  | .fill => c.fill p i
  | .releasesleep => c.releasesleep p i
  | .drop => c.drop p i

/-- What `log_write` does to the cache; `new` if the block was not in the log header. -/
def logWrite (c : Cache P) (p : P) (i : Fin NBUF) (new : Bool) : Option (Cache P) :=
  if (c.hold i p).Has then
    let c := { c with latest := update c.latest (c.buf i).blockno (c.buf i).data }
    if new then
      some { c.put i { c.buf i with refcnt := (c.buf i).refcnt + 1 } p .held with
        pins := update c.pins i (c.pins i + 1) }
    else some (c.put i (c.buf i) p .held)
  else none

def bwrite (c : Cache P) (p : P) (i : Fin NBUF) : Option (Cache P) :=
  if (c.hold i p).Has then
    some { c.put i (c.buf i) p .held with
      disk := update c.disk (c.buf i).blockno (c.buf i).data }
  else none

def bunpin (c : Cache P) (p : P) (i : Fin NBUF) : Cache P :=
  { c.put i { c.buf i with refcnt := (c.buf i).refcnt - 1 } p (c.hold i p) with
    pins := update c.pins i (c.pins i - 1) }

def commitAll (c : Cache P) : Cache P := { c with committed := c.latest }

end Cache

/-- What a block is expected to hold: for the log area that is the disk itself. -/
def Cache.content {P : Type} (L : LogArea) (c : Cache P) (b : Nat) : Block :=
  if L.Home b then c.latest b else c.disk b

/-- The cache agrees with `latest`, and the disk does wherever no buffer is pinned. -/
structure Coherent {P : Type} [Fintype P] (L : LogArea) (dev : Nat) (lh : List Nat) (c : Cache P) :
    Prop where
  names : ∀ i j, (c.buf i).dev = dev → (c.buf j).dev = dev →
    (c.buf i).blockno = (c.buf j).blockno → i = j
  refs : ∀ i, (c.buf i).refcnt = ∑ p, (c.hold i p).count + c.pins i
  lock : ∀ i p q, (c.hold i p).Locks → (c.hold i q).Locks → p = q
  named : ∀ i p, c.hold i p ≠ .none → (c.buf i).dev = dev
  filled : ∀ i p, (c.hold i p).Has → (c.buf i).valid = true
  pinned : ∀ i, c.pins i ≠ 0 → c.pins i = 1 ∧ (c.buf i).dev = dev ∧ (c.buf i).valid = true ∧
    L.Home (c.buf i).blockno ∧ (c.buf i).blockno ∈ lh
  data : ∀ i, (c.buf i).dev = dev → (c.buf i).valid = true → (∀ p, c.hold i p ≠ .dirty) →
    (c.buf i).data = c.content L (c.buf i).blockno
  clean : ∀ b, L.Home b → (∀ i, (c.buf i).dev = dev → (c.buf i).blockno = b → c.pins i = 0) →
    c.disk b = c.latest b

section Preservation

variable {P : Type} [DecidableEq P] [Fintype P] {L : LogArea} {dev : Nat} {lh : List Nat}
  {c c' : Cache P} {i : Fin NBUF} {p : P}

section

omit [Fintype P]

variable (c : Cache P) (i : Fin NBUF) (b : Buf) (p : P) (k : Hold)

theorem put_hold_self : (c.put i b p k).hold i p = k := by
  simp [Cache.put]

theorem put_hold_other {q : P} (hq : q ≠ p) (j : Fin NBUF) :
    (c.put i b p k).hold j q = c.hold j q := by
  by_cases hj : j = i
  · subst hj
    simp [Cache.put, hq]
  · simp [Cache.put, hj]

theorem put_of_ne {j : Fin NBUF} (hj : j ≠ i) :
    (c.put i b p k).buf j = c.buf j ∧ (c.put i b p k).hold j = c.hold j := by
  simp [Cache.put, hj]

theorem put_names (hd : b.dev = (c.buf i).dev) (hb : b.blockno = (c.buf i).blockno) (j : Fin NBUF) :
    ((c.put i b p k).buf j).dev = (c.buf j).dev ∧
      ((c.put i b p k).buf j).blockno = (c.buf j).blockno := by
  by_cases hj : j = i
  · subst hj
    simp [Cache.put, hd, hb]
  · rw [(put_of_ne c i b p k hj).1]
    exact ⟨rfl, rfl⟩

end

/-- One process changes one buffer: what has to be checked about that buffer. -/
theorem Coherent.put (h : Coherent L dev lh c) (b : Buf) (k : Hold)
    (hname : b.dev = dev → ∀ j, j ≠ i → (c.buf j).dev = dev → (c.buf j).blockno ≠ b.blockno)
    (hrefs : b.refcnt + (c.hold i p).count = (c.buf i).refcnt + k.count)
    (hlock : k.Locks → ∀ q, q ≠ p → ¬ (c.hold i q).Locks)
    (hnamed : k ≠ .none ∨ (∃ q, q ≠ p ∧ c.hold i q ≠ .none) → b.dev = dev)
    (hfilled : k.Has ∨ (∃ q, q ≠ p ∧ (c.hold i q).Has) → b.valid = true)
    (hpinned : c.pins i ≠ 0 → b.dev = dev ∧ b.valid = true ∧ b.blockno = (c.buf i).blockno)
    (hdata : b.dev = dev → b.valid = true → k ≠ .dirty → (∀ q, q ≠ p → c.hold i q ≠ .dirty) →
      b.data = c.content L b.blockno) : Coherent L dev lh (c.put i b p k) := by
  have hput : ∀ {R : Hold → Prop} {S : Buf → Prop}, (∀ j q, R (c.hold j q) → S (c.buf j)) →
      (R k ∨ (∃ q, q ≠ p ∧ R (c.hold i q)) → S b) →
      ∀ j q, R ((c.put i b p k).hold j q) → S ((c.put i b p k).buf j) := by
    intro R S hold hnew j q hq
    by_cases hji : j = i
    · subst hji
      simp only [Cache.put, update_self]
      apply hnew
      by_cases hqp : q = p
      · subst hqp
        rw [put_hold_self] at hq
        exact Or.inl hq
      · rw [put_hold_other _ _ _ _ _ hqp] at hq
        exact Or.inr ⟨q, hqp, hq⟩
    · rw [(put_of_ne c i b p k hji).2] at hq
      rw [(put_of_ne c i b p k hji).1]
      exact hold j q hq
  constructor
  · intro j j' hj hj' hb
    by_cases hji : j = i <;> by_cases hji' : j' = i
    · rw [hji, hji']
    · subst hji
      simp only [Cache.put, update_self, update_of_ne hji'] at hj hj' hb
      exact absurd hb.symm (hname hj j' hji' hj')
    · subst hji'
      simp only [Cache.put, update_self, update_of_ne hji] at hj hj' hb
      exact absurd hb (hname hj' j hji hj)
    · simp only [Cache.put, update_of_ne hji, update_of_ne hji'] at hj hj' hb
      exact h.names j j' hj hj' hb
  · intro j
    by_cases hji : j = i
    · subst hji
      have hs := Counting.sum_update Hold.count (c.hold j) p k
      have hr := h.refs j
      simp only [Cache.put, update_self]
      omega
    · simpa [Cache.put, hji] using h.refs j
  · intro j q q' hq hq'
    by_cases hji : j = i
    · subst hji
      by_cases hqp : q = p <;> by_cases hqp' : q' = p
      · rw [hqp, hqp']
      · subst hqp
        rw [put_hold_self] at hq
        rw [put_hold_other _ _ _ _ _ hqp'] at hq'
        exact absurd hq' (hlock hq q' hqp')
      · subst hqp'
        rw [put_hold_self] at hq'
        rw [put_hold_other _ _ _ _ _ hqp] at hq
        exact absurd hq (hlock hq' q hqp)
      · rw [put_hold_other _ _ _ _ _ hqp] at hq
        rw [put_hold_other _ _ _ _ _ hqp'] at hq'
        exact h.lock j q q' hq hq'
    · rw [(put_of_ne c i b p k hji).2] at hq hq'
      exact h.lock j q q' hq hq'
  · exact hput (R := (· ≠ .none)) (S := (·.dev = dev)) h.named hnamed
  · exact hput (S := (·.valid = true)) h.filled hfilled
  · intro j hj
    change c.pins j ≠ 0 at hj
    have hp := h.pinned j hj
    by_cases hji : j = i
    · subst hji
      obtain ⟨h1, h2, h3⟩ := hpinned hj
      simp only [Cache.put, update_self, h1, h2, h3]
      exact ⟨hp.1, trivial, trivial, hp.2.2.2⟩
    · rw [(put_of_ne c i b p k hji).1]
      exact hp
  · intro j hd hv hnd
    by_cases hji : j = i
    · subst hji
      have hself := hnd p
      rw [put_hold_self] at hself
      simp only [Cache.put, update_self] at hd hv ⊢
      apply hdata hd hv hself
      intro q hq
      have := hnd q
      rwa [put_hold_other _ _ _ _ _ hq] at this
    · rw [(put_of_ne c i b p k hji).1] at hd hv ⊢
      rw [(put_of_ne c i b p k hji).2] at hnd
      exact h.data j hd hv hnd
  · intro b' hb' hno
    apply h.clean b' hb'
    intro j hj hjb
    by_contra hpin
    apply hpin
    have := hno j
    by_cases hji : j = i
    · subst hji
      obtain ⟨h1, _, h3⟩ := hpinned hpin
      simp only [Cache.put, update_self, h1, h3] at this
      exact this trivial hjb
    · rw [(put_of_ne c i b p k hji).1] at this
      exact this hj hjb

section

omit [DecidableEq P]

variable (h : Coherent L dev lh c)
include h

theorem Coherent.held_refcnt (hp : c.hold i p ≠ .none) : (c.buf i).refcnt ≠ 0 := by
  have hl := Counting.le_sum (fun q => (c.hold i q).count) p
  have hr := h.refs i
  have h1 : (c.hold i p).count = 1 := by
    cases hk : c.hold i p with
    | none => exact absurd hk hp
    | _ => rfl
  omega

theorem Coherent.pinned_refcnt (hp : c.pins i ≠ 0) : (c.buf i).refcnt ≠ 0 := by
  have hr := h.refs i
  omega

theorem Coherent.not_dirty (hp : (c.hold i p).Locks) (q : P) (hq : q ≠ p) :
    c.hold i q ≠ .dirty := by
  intro hd
  exact hq (h.lock i q p (hd ▸ Or.inr (Or.inr rfl)) hp)

end

/-- A step by `p` that leaves alone what other processes rely on. -/
structure Quiet (p : P) (c c' : Cache P) : Prop where
  pins : c'.pins = c.pins
  disk : c'.disk = c.disk
  latest : c'.latest = c.latest
  committed : c'.committed = c.committed
  hold : ∀ j q, q ≠ p → c'.hold j q = c.hold j q
  keeps : ∀ j, (c.buf j).refcnt ≠ 0 → (c'.buf j).dev = (c.buf j).dev ∧
    (c'.buf j).blockno = (c.buf j).blockno ∧ ((c.buf j).valid = true → (c'.buf j).valid = true)
  locked : ∀ j q, q ≠ p → (c.hold j q).Locks → (c'.buf j).data = (c.buf j).data
  dirty : ∀ j, c'.hold j p = .dirty → c.hold j p = .dirty

omit [Fintype P] in
theorem Quiet.put (b : Buf) (k : Hold) (hk : k ≠ .dirty)
    (hkeeps : (c.buf i).refcnt ≠ 0 → b.dev = (c.buf i).dev ∧ b.blockno = (c.buf i).blockno ∧
      ((c.buf i).valid = true → b.valid = true))
    (hlocked : ∀ q, q ≠ p → (c.hold i q).Locks → b.data = (c.buf i).data) :
    Quiet p c (c.put i b p k) := by
  refine ⟨rfl, rfl, rfl, rfl, fun j q hq => put_hold_other c i b p k hq j, ?_, ?_, ?_⟩
  · intro j hj
    by_cases hji : j = i
    · subst hji
      simpa [Cache.put] using hkeeps hj
    · rw [(put_of_ne c i b p k hji).1]
      exact ⟨rfl, rfl, id⟩
  · intro j q hq hl
    by_cases hji : j = i
    · subst hji
      simpa [Cache.put] using hlocked q hq hl
    · rw [(put_of_ne c i b p k hji).1]
  intro j hd
  by_cases hji : j = i
  · subst hji
    rw [put_hold_self] at hd
    exact absurd hd hk
  · rwa [(put_of_ne c i b p k hji).2] at hd

section

variable (h : Coherent L dev lh c)
include h

theorem bget_spec {b : Nat} (hs : c.bget dev b p i = some c') :
    Coherent L dev lh c' ∧ Quiet p c c' ∧ c'.hold i p = .waiting ∧
      ((c'.buf i).dev = dev ∧ (c'.buf i).blockno = b) ∧
      ∀ j, j ≠ i → c'.buf j = c.buf j ∧ c'.hold j = c.hold j := by
  simp only [Cache.bget, bgetAt] at hs
  split_ifs at hs with hp hhit hmiss
  · simp only [map_some, some.injEq, update_self] at hs
    subst hs
    refine ⟨?_, ?_, put_hold_self _ _ _ _ _, ?_, fun j hj => put_of_ne c i _ p _ hj⟩
    · refine h.put _ _ ?_ ?_ ?_ (fun _ => hhit.1) ?_ ?_ ?_
      · intro _ j hj hd hb
        exact hj (h.names j i hd hhit.1 hb)
      · simp [hp, Hold.count]
      · simp [Hold.Locks]
      · rintro (hk | ⟨q, _, hq⟩)
        · simp [Hold.Has] at hk
        · exact h.filled i q hq
      · intro hpin
        have := h.pinned i hpin
        exact ⟨this.2.1, this.2.2.1, rfl⟩
      intro hd hv _ hno
      refine h.data i hd hv ?_
      intro q
      by_cases hq : q = p
      · rw [hq, hp]
        simp
      · exact hno q hq
    · exact Quiet.put _ _ (by simp) (fun _ => ⟨rfl, rfl, id⟩) (fun _ _ _ => rfl)
    · simpa [Cache.put] using hhit
  · simp only [map_some, some.injEq, update_self] at hs
    subst hs
    have hfree (q : P) : c.hold i q = .none := by
      by_contra hq
      exact h.held_refcnt hq hmiss.2
    refine ⟨?_, ?_, put_hold_self _ _ _ _ _, ?_, fun j hj => put_of_ne c i _ p _ hj⟩
    · refine h.put _ _ ?_ ?_ ?_ (fun _ => rfl) ?_ ?_ ?_
      · intro _ j _ hd hb
        exact hmiss.1 j ⟨hd, hb⟩
      · simp [hp, Hold.count, hmiss.2]
      · simp [Hold.Locks]
      · rintro (hk | ⟨q, _, hq⟩)
        · simp [Hold.Has] at hk
        · rw [hfree q] at hq
          simp [Hold.Has] at hq
      · exact fun hpin => absurd hmiss.2 (h.pinned_refcnt hpin)
      · intro _ hv
        simp at hv
    · refine Quiet.put _ _ (by simp) (fun hr => absurd hmiss.2 hr) ?_
      intro q _ hq
      exact absurd (hfree q) hq.ne_none
    · simp [Cache.put]
  · simp at hs

/-- A step of `bread` or `brelse` that keeps the buffer's name and contents. -/
theorem Coherent.put_same {n : Nat} (hrefs : n + (c.hold i p).count = (c.buf i).refcnt + k.count)
    (hk : k ≠ .dirty) (hp : c.hold i p ≠ .none) (hnd : c.hold i p ≠ .dirty)
    (hlock : k.Locks → ∀ q, q ≠ p → ¬ (c.hold i q).Locks) (hhas : k.Has → (c.buf i).valid = true) :
    Coherent L dev lh (c.put i { c.buf i with refcnt := n } p k) ∧
      Quiet p c (c.put i { c.buf i with refcnt := n } p k) := by
  have hdev := h.named i p hp
  constructor
  · refine h.put _ _ ?_ hrefs hlock (fun _ => hdev) ?_ ?_ ?_
    · intro _ j hj hd hb
      exact hj (h.names j i hd hdev hb)
    · rintro (hk | ⟨q, _, hq⟩)
      · exact hhas hk
      · exact h.filled i q hq
    · intro hpin
      have := h.pinned i hpin
      exact ⟨this.2.1, this.2.2.1, rfl⟩
    intro hd hv _ hno
    refine h.data i hd hv ?_
    intro q
    by_cases hq : q = p
    · rw [hq]
      exact hnd
    · exact hno q hq
  · exact Quiet.put _ _ hk (fun _ => ⟨rfl, rfl, id⟩) (fun _ _ _ => rfl)

theorem fill_spec (hs : c.fill p i = some c') :
    Coherent L dev lh c' ∧ Quiet p c c' ∧ c.hold i p = .locked ∧ c'.hold i p = .held ∧
      ∀ j, j ≠ i → c'.buf j = c.buf j ∧ c'.hold j = c.hold j := by
  simp only [Cache.fill] at hs
  split_ifs at hs with hp hv
  · cases hs
    have hk : c.hold i p ≠ .none := by simp [hp]
    have hsame := h.put_same (i := i) (p := p) (k := .held) (n := (c.buf i).refcnt)
      (by simp [hp, Hold.count]) (by simp) hk (by simp [hp])
      (fun _ q hq hl => hq (h.lock i q p hl (hp ▸ Or.inl rfl))) (fun _ => hv)
    exact ⟨hsame.1, hsame.2, hp, put_hold_self _ _ _ _ _, fun j hj => put_of_ne c i _ p _ hj⟩
  cases hs
  have hk : c.hold i p ≠ .none := by simp [hp]
  have hl : (c.hold i p).Locks := hp ▸ Or.inl rfl
  have hdev := h.named i p hk
  have hunpinned : c.pins i = 0 := by
    by_contra hpin
    exact hv (h.pinned i hpin).2.2.1
  refine ⟨?_, ?_, hp, put_hold_self _ _ _ _ _, fun j hj => put_of_ne c i _ p _ hj⟩
  · refine h.put _ _ ?_ (by simp [hp, Hold.count]) ?_ (fun _ => hdev) (fun _ => rfl) ?_ ?_
    · intro _ j hj hd hb
      exact hj (h.names j i hd hdev hb)
    · exact fun _ q hq hl' => hq (h.lock i q p hl' hl)
    · exact fun hpin => absurd hunpinned hpin
    -- no buffer of the block is pinned, so the disk has its latest contents
    intro _ _ _ _
    simp only [Cache.content]
    split_ifs with hh
    · apply h.clean _ hh
      intro j hd hb
      rw [h.names j i hd hdev hb]
      exact hunpinned
    · rfl
  · refine Quiet.put _ _ (by simp) (fun _ => ⟨rfl, rfl, fun _ => rfl⟩) ?_
    exact fun q hq hl' => absurd (h.lock i q p hl' hl) hq

/-- The steps of `bread` and `brelse` keep the cache coherent and disturb nobody. -/
theorem touch_spec {a : Cache.Touch} (hs : c.touch dev p i a = some c') :
    Coherent L dev lh c' ∧ Quiet p c c' ∧ c.hold i p = a.pre ∧ c'.hold i p = a.post ∧
      (∀ b, a = .bget b → (c'.buf i).dev = dev ∧ (c'.buf i).blockno = b) ∧
      ∀ j, j ≠ i → c'.buf j = c.buf j ∧ c'.hold j = c.hold j := by
  cases a with
  | bget b =>
    have hp : c.hold i p = .none := by
      simp only [Cache.touch, Cache.bget] at hs
      split_ifs at hs with hp
      exact hp
    obtain ⟨h1, h2, h3, h4, h5⟩ := bget_spec h hs
    refine ⟨h1, h2, hp, h3, ?_, h5⟩
    intro b' hb
    cases hb
    exact h4
  | acquiresleep =>
    simp only [Cache.touch, Cache.acquiresleep] at hs
    split_ifs at hs with hp
    cases hs
    have hsame := h.put_same (i := i) (p := p) (k := .locked) (n := (c.buf i).refcnt)
      (by simp [hp.1, Hold.count]) (by simp) (by simp [hp.1]) (by simp [hp.1])
      (fun _ q _ => hp.2 q) (by simp [Hold.Has])
    exact ⟨hsame.1, hsame.2, hp.1, put_hold_self _ _ _ _ _, by simp,
      fun j hj => put_of_ne c i _ p _ hj⟩
  | fill =>
    obtain ⟨h1, h2, h3, h4, h5⟩ := fill_spec h hs
    exact ⟨h1, h2, h3, h4, by simp, h5⟩
  | releasesleep =>
    simp only [Cache.touch, Cache.releasesleep] at hs
    split_ifs at hs with hp
    cases hs
    have hsame := h.put_same (i := i) (p := p) (k := .leaving) (n := (c.buf i).refcnt)
      (by simp [hp, Hold.count]) (by simp) (by simp [hp]) (by simp [hp])
      (by simp [Hold.Locks]) (by simp [Hold.Has])
    exact ⟨hsame.1, hsame.2, hp, put_hold_self _ _ _ _ _, by simp,
      fun j hj => put_of_ne c i _ p _ hj⟩
  | drop =>
    simp only [Cache.touch, Cache.drop] at hs
    split_ifs at hs with hp
    cases hs
    have hk : c.hold i p ≠ .none := by simp [hp]
    have hr := h.held_refcnt hk
    have hsame := h.put_same (i := i) (p := p) (k := .none) (n := (c.buf i).refcnt - 1)
      (by simp [hp, Hold.count]; omega) (by simp) hk (by simp [hp])
      (by simp [Hold.Locks]) (by simp [Hold.Has])
    exact ⟨hsame.1, hsame.2, hp, put_hold_self _ _ _ _ _, by simp,
      fun j hj => put_of_ne c i _ p _ hj⟩

theorem modify_coherent (hp : (c.hold i p).Has) (data : Block) :
    Coherent L dev lh (c.put i { c.buf i with data := data } p .dirty) := by
  have hdev := h.named i p hp.locks.ne_none
  have hv := h.filled i p hp
  refine h.put _ _ ?_ ?_ ?_ (fun _ => hdev) (fun _ => hv) (fun _ => ⟨hdev, hv, rfl⟩) ?_
  · intro _ j hj hd hb
    exact hj (h.names j i hd hdev hb)
  · rcases hp with hp | hp <;> simp [hp, Hold.count]
  · exact fun _ q hq hl => hq (h.lock i q p hl hp.locks)
  · exact fun _ _ hk => absurd rfl hk

/-- One process changes a block it has: its buffer, its pin and its contents. -/
theorem Coherent.change {lh' : List Nat} (hlh : ∀ x ∈ lh, x ∈ lh') (hp : (c.hold i p).Has) {b : Buf}
    (hbuf : c'.buf = update c.buf i b) (hhold : c'.hold = update c.hold i (update (c.hold i) p k))
    (hname : b.dev = (c.buf i).dev ∧ b.blockno = (c.buf i).blockno ∧ b.valid = (c.buf i).valid)
    (hpins : ∀ j, j ≠ i → c'.pins j = c.pins j)
    (hrest : ∀ x, x ≠ (c.buf i).blockno → c'.latest x = c.latest x ∧ c'.disk x = c.disk x)
    (hk : k.Has) (hrefs : b.refcnt + c.pins i = (c.buf i).refcnt + c'.pins i)
    (hpinned : c'.pins i ≠ 0 → c'.pins i = 1 ∧ L.Home (c.buf i).blockno ∧ (c.buf i).blockno ∈ lh')
    (hdata : b.data = c'.content L (c.buf i).blockno)
    (hclean : L.Home (c.buf i).blockno → c'.pins i = 0 →
      c'.disk (c.buf i).blockno = c'.latest (c.buf i).blockno) : Coherent L dev lh' c' := by
  have hdev := h.named i p hp.locks.ne_none
  have hv := h.filled i p hp
  have self : c'.buf i = b := by rw [hbuf, update_self]
  have other {j : Fin NBUF} (hj : j ≠ i) : c'.buf j = c.buf j ∧ c'.hold j = c.hold j := by
    rw [hbuf, hhold, update_of_ne hj, update_of_ne hj]
    exact ⟨rfl, rfl⟩
  have name (j : Fin NBUF) : (c'.buf j).dev = (c.buf j).dev ∧
      (c'.buf j).blockno = (c.buf j).blockno ∧ (c'.buf j).valid = (c.buf j).valid := by
    by_cases hj : j = i
    · subst hj
      rw [self]
      exact hname
    · rw [(other hj).1]
      exact ⟨rfl, rfl, rfl⟩
  have holdOther (j : Fin NBUF) {q : P} (hq : q ≠ p) : c'.hold j q = c.hold j q := by
    by_cases hj : j = i
    · subst hj
      rw [hhold, update_self, update_of_ne hq]
    · rw [(other hj).2]
  have holdSelf : c'.hold i p = k := by rw [hhold, update_self, update_self]
  have locks (j : Fin NBUF) (q : P) (hl : (c'.hold j q).Locks) : (c.hold j q).Locks := by
    by_cases hq : q = p
    · subst hq
      by_cases hj : j = i
      · subst hj
        exact hp.locks
      · rwa [(other hj).2] at hl
    · rwa [holdOther j hq] at hl
  constructor
  · intro j j' hj hj' hb
    rw [(name j).1] at hj
    rw [(name j').1] at hj'
    rw [(name j).2.1, (name j').2.1] at hb
    exact h.names j j' hj hj' hb
  · intro j
    by_cases hj : j = i
    · subst hj
      have hs := Counting.sum_update Hold.count (c.hold j) p k
      have hr := h.refs j
      have h1 : (c.hold j p).count = 1 := by rcases hp with hp | hp <;> simp [hp, Hold.count]
      have h2 : k.count = 1 := by rcases hk with hk | hk <;> simp [hk, Hold.count]
      rw [self, hhold, update_self]
      omega
    · rw [(other hj).1, (other hj).2, hpins j hj]
      exact h.refs j
  · intro j q q' hq hq'
    exact h.lock j q q' (locks j q hq) (locks j q' hq')
  · intro j q hq
    rw [(name j).1]
    by_cases hj : j = i
    · rw [hj]
      exact hdev
    · rw [(other hj).2] at hq
      exact h.named j q hq
  · intro j q hq
    rw [(name j).2.2]
    by_cases hj : j = i
    · rw [hj]
      exact hv
    · rw [(other hj).2] at hq
      exact h.filled j q hq
  · intro j hj
    rw [(name j).1, (name j).2.1, (name j).2.2]
    by_cases hji : j = i
    · subst hji
      have := hpinned hj
      exact ⟨this.1, hdev, hv, this.2⟩
    · rw [hpins j hji] at hj ⊢
      have := h.pinned j hj
      exact ⟨this.1, this.2.1, this.2.2.1, this.2.2.2.1, hlh _ this.2.2.2.2⟩
  · intro j hd hv' hnd
    by_cases hj : j = i
    · subst hj
      rw [self, hname.2.1]
      exact hdata
    · rw [(other hj).1] at hd hv' ⊢
      rw [(other hj).2] at hnd
      have hne : (c.buf j).blockno ≠ (c.buf i).blockno := fun he => hj (h.names j i hd hdev he)
      rw [h.data j hd hv' hnd, Cache.content, Cache.content, (hrest _ hne).1, (hrest _ hne).2]
  · intro x hx hno
    by_cases hxi : x = (c.buf i).blockno
    · subst hxi
      apply hclean hx
      exact hno i (by rw [(name i).1]; exact hdev) (name i).2.1
    rw [(hrest x hxi).1, (hrest x hxi).2]
    apply h.clean x hx
    intro j hd hb
    have hj : j ≠ i := by
      rintro rfl
      exact hxi hb.symm
    rw [← hpins j hj]
    exact hno j (by rw [(name j).1]; exact hd) (by rw [(name j).2.1]; exact hb)

theorem logWrite_coherent (hp : (c.hold i p).Has)
    (hhome : L.Home (c.buf i).blockno) {lh' : List Nat} (hlh : ∀ x ∈ lh, x ∈ lh')
    (hmem : (c.buf i).blockno ∈ lh') {new : Bool} (hnew : new = decide (c.pins i = 0))
    (hs : c.logWrite p i new = some c') : Coherent L dev lh' c' := by
  simp only [Cache.logWrite, if_pos hp] at hs
  split_ifs at hs with hn
  · cases hs
    have h0 : c.pins i = 0 := by simpa [hnew] using hn
    refine h.change hlh hp rfl rfl ⟨rfl, rfl, rfl⟩ ?_ ?_ (Or.inl rfl) ?_ ?_ ?_ ?_
    · intro j hj
      simp [hj]
    · intro x hx
      simp [Cache.put, hx]
    · simp only [update_self, h0]
    · simp [h0, hhome, hmem]
    · simp [Cache.put, Cache.content, hhome]
    · simp [h0]
  · cases hs
    have h0 : c.pins i ≠ 0 := by simpa [hnew] using hn
    refine h.change hlh hp rfl rfl ⟨rfl, rfl, rfl⟩ (fun _ _ => rfl) ?_ (Or.inl rfl) rfl ?_ ?_ ?_
    · intro x hx
      simp [Cache.put, hx]
    · exact fun _ => ⟨(h.pinned i h0).1, hhome, hmem⟩
    · simp [Cache.put, Cache.content, hhome]
    · exact fun _ hz => absurd hz h0

/-- Writing a home block is coherent once it is the latest contents that go out. -/
theorem bwrite_coherent (hp : (c.hold i p).Has)
    (hlatest : L.Home (c.buf i).blockno → (c.buf i).data = c.latest (c.buf i).blockno)
    (hs : c.bwrite p i = some c') : Coherent L dev lh c' := by
  simp only [Cache.bwrite, if_pos hp] at hs
  cases hs
  refine h.change (fun _ hx => hx) hp rfl rfl ⟨rfl, rfl, rfl⟩ (fun _ _ => rfl) ?_ (Or.inl rfl) rfl
    ?_ ?_ ?_
  · intro x hx
    simp [Cache.put, hx]
  · intro hpin
    have := h.pinned i hpin
    exact ⟨this.1, this.2.2.2⟩
  · simp only [Cache.content, Cache.put, update_self]
    split_ifs with hh
    · exact hlatest hh
    · rfl
  · intro hh _
    simpa [Cache.put] using hlatest hh

theorem bunpin_coherent (hp : c.hold i p = .held)
    (hpin : c.pins i ≠ 0) (hdisk : c.disk (c.buf i).blockno = c.latest (c.buf i).blockno) :
    Coherent L dev lh (c.bunpin p i) := by
  have hr := h.pinned_refcnt hpin
  have h1 := (h.pinned i hpin).1
  have hhas : (c.hold i p).Has := Or.inl hp
  refine h.change (fun _ hx => hx) hhas rfl rfl ⟨rfl, rfl, rfl⟩ ?_ (fun _ _ => ⟨rfl, rfl⟩) hhas
    ?_ ?_ ?_ (fun _ _ => hdisk)
  · intro j hj
    simp [Cache.bunpin, hj]
  · simp only [Cache.bunpin, update_self]
    omega
  · simp [Cache.bunpin, h1]
  · refine h.data i (h.named i p hhas.locks.ne_none) (h.filled i p hhas) ?_
    intro q
    by_cases hq : q = p
    · simp [hq, hp]
    · exact h.not_dirty hhas.locks q hq

end

end Preservation

end Xv6.Cached
