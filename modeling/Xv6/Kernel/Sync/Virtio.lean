import Xv6.Framework.Monitor
import Xv6.Kernel.Param

namespace Xv6.Virtio

open Monitor Monitor.Client Transition Function List

def NUM : Nat := 8

instance num_neZero : NeZero NUM := ⟨by decide⟩

def VRING_DESC_F_NEXT : UInt16 := 1

def VRING_DESC_F_WRITE : UInt16 := 2

abbrev Idx : Type := Fin NUM

/-- `i % NUM` for the index of a ring. -/
def slot (i : UInt16) : Idx := Fin.ofNat NUM i.toNat

/-- What a descriptor points at: nothing, `disk.ops[i]`, `b->data` or `disk.info[i].status`. -/
inductive Addr (B : Type)
  | null
  | op (i : Idx)
  | data (b : B)
  | status (i : Idx)

/-- `struct virtq_desc`. -/
structure Desc (B : Type) where
  addr : Addr B
  len : UInt32
  flags : UInt16
  next : UInt16

/-- `struct virtio_blk_req`: `write` for `VIRTIO_BLK_T_OUT`. -/
structure Op where
  write : Bool
  sector : UInt64

structure Info (B : Type) where
  b : Option B
  status : UInt8

/-- `struct virtq_avail` and `struct virtq_used`, with the descriptor numbers only. -/
structure VRing (α : Type) where
  idx : UInt16
  ring : Idx → α

/-- A call of `virtio_disk_rw`; `id` says which call of which thread it is. -/
structure Call (T B : Type) where
  id : T × Nat
  b : B
  blockno : UInt32
  write : Bool

/-- What the device is asked for. -/
structure Request (B : Type) where
  b : B
  write : Bool
  sector : UInt64

/-- The three descriptors of a call; the first is known from the context. -/
structure Chain (T B : Type) where
  call : Call T B
  mid : Idx
  last : Idx

/-- What the device knows: how far it has read in the ring `avail`, the requests it works on, and
those it has still to report. -/
structure Device where
  seen : UInt16
  inflight : List Idx
  finished : List Idx

/-- The two rings with the device between them. As history: the descriptors put in each ring, and
how many of them were taken out. -/
structure Rings where
  avail : VRing UInt16
  used : VRing UInt32
  device : Device
  published : List Idx
  taken : Nat
  posted : List Idx
  acked : Nat

/-- `disk` without its lock, `b->disk` for every buffer, and the device. As history: the call that
uses a buffer, the chains by their first descriptor, and the requests completed. -/
structure Disk (T B : Type) where
  desc : Idx → Desc B
  rings : Rings
  free : Idx → Bool
  usedIdx : UInt16
  info : Idx → Info B
  ops : Idx → Op
  disk : B → Bool
  panic : Option String
  user : B → Option (T × Nat)
  chain : Idx → Option (Chain T B)
  log : List ((T × Nat) × Request B)

inductive Chan (B : Type)
  | free
  | buf (b : B)
  deriving DecidableEq

variable {T B : Type}

/-- `b->blockno * (BSIZE / 512)`. -/
def Call.sector (c : Call T B) : UInt64 := (c.blockno * UInt32.ofNat (BSIZE / 512)).toUInt64

def Call.request (c : Call T B) : Request B := ⟨c.b, c.write, c.sector⟩

namespace Rings

/-- `disk.avail->ring[disk.avail->idx % NUM] = idx[0]`. -/
def put (q : Rings) (i₀ : Idx) : Rings :=
  { q with avail := { q.avail with
      ring := update q.avail.ring (slot q.avail.idx) (UInt16.ofNat i₀) } }

/-- `disk.avail->idx += 1`. -/
def publish (q : Rings) (i₀ : Idx) : Rings :=
  { q with
    avail := { q.avail with idx := q.avail.idx + 1 }
    published := q.published ++ [i₀] }

/-- The device takes the next entry of the ring `avail`. -/
def take (q : Rings) : Rings :=
  { q with
    device := { q.device with
      seen := q.device.seen + 1
      inflight := q.device.inflight ++ [slot (q.avail.ring (slot q.device.seen))] }
    taken := q.taken + 1 }

def serve (q : Rings) (h : Idx) : Rings :=
  { q with device := { q.device with
      inflight := q.device.inflight.erase h
      finished := q.device.finished ++ [h] } }

/-- The device reports a request in the ring `used`. -/
def post (q : Rings) (h : Idx) : Rings :=
  { q with
    used := ⟨q.used.idx + 1, update q.used.ring (slot q.used.idx) (UInt32.ofNat h)⟩
    device := { q.device with finished := q.device.finished.erase h }
    posted := q.posted ++ [h] }

end Rings

namespace Disk

/-- The disk after `virtio_disk_init`. -/
def new : Disk T B where
  desc _ := ⟨.null, 0, 0, 0⟩
  rings := ⟨⟨0, fun _ => 0⟩, ⟨0, fun _ => 0⟩, ⟨0, [], []⟩, [], 0, [], 0⟩
  free _ := true
  usedIdx := 0
  info _ := ⟨none, 0⟩
  ops _ := ⟨false, 0⟩
  disk _ := false
  panic := none
  user _ := none
  chain _ := none
  log := []

def allocDesc (d : Disk T B) : Option Idx × Disk T B :=
  match (List.finRange NUM).find? fun i => d.free i with
  | some i => (some i, { d with free := update d.free i false })
  | none => (none, d)

/-- `free_desc` without its `wakeup`. -/
def freeDesc (d : Disk T B) (i : Nat) : Except String (Disk T B) :=
  if h : i < NUM then
    if d.free ⟨i, h⟩ then .error "free_desc 2"
    else .ok { d with
      desc := update d.desc ⟨i, h⟩ ⟨.null, 0, 0, 0⟩
      free := update d.free ⟨i, h⟩ true }
  else .error "free_desc 1"

/-- `free_chain`. Every round frees a descriptor or panics, so after `NUM` rounds the next one
panics. -/
def freeChainFrom : Nat → Disk T B → Idx → Except String (Disk T B)
  | 0, _, _ => .error "free_desc 2"
  | fuel + 1, d, i =>
      match d.freeDesc i with
      | .error m => .error m
      | .ok d' =>
          if (d.desc i).flags &&& VRING_DESC_F_NEXT ≠ 0 then
            if h : (d.desc i).next.toNat < NUM then
              freeChainFrom fuel d' ⟨(d.desc i).next.toNat, h⟩
            else .error "free_desc 1"
          else .ok d'

def freeChain (d : Disk T B) (i : Idx) : Except String (Disk T B) := freeChainFrom NUM d i

/-- The loop of `alloc3_desc`; `got` are the descriptors it has. -/
def alloc3From : Nat → Disk T B → List Idx → Except String (Option (List Idx) × Disk T B)
  | 0, d, got => .ok (some got, d)
  | k + 1, d, got =>
      match d.allocDesc with
      | (some i, d') => alloc3From k d' (got ++ [i])
      | (none, d') => (got.foldlM (fun (d : Disk T B) (i : Idx) => d.freeDesc i) d').map fun d => (none, d)

def alloc3Desc (d : Disk T B) : Except String (Option (List Idx) × Disk T B) := alloc3From 3 d []

/-- The three descriptors are formatted for a call. -/
def format [DecidableEq B] (d : Disk T B) (c : Call T B) (i₀ i₁ i₂ : Idx) : Disk T B :=
  { d with
    ops := update d.ops i₀ ⟨c.write, c.sector⟩
    desc := update (update (update d.desc
      i₀ ⟨.op i₀, 16, VRING_DESC_F_NEXT, UInt16.ofNat i₁⟩)
      i₁ ⟨.data c.b, UInt32.ofNat BSIZE,
        (if c.write then 0 else VRING_DESC_F_WRITE) ||| VRING_DESC_F_NEXT, UInt16.ofNat i₂⟩)
      i₂ ⟨.status i₀, 1, VRING_DESC_F_WRITE, 0⟩
    info := update d.info i₀ ⟨some c.b, 0xff⟩
    disk := update d.disk c.b true
    chain := update d.chain i₀ (some ⟨c, i₁, i₂⟩) }

/-- `disk.info[idx[0]].b = 0; free_chain(idx[0])`. -/
def finish [DecidableEq B] (d : Disk T B) (c : Call T B) (i₀ : Idx) : Except String (Disk T B) :=
  (freeChain { d with info := update d.info i₀ ⟨none, (d.info i₀).status⟩ } i₀).map
    fun d => { d with
      chain := update d.chain i₀ none
      user := update d.user c.b none }

/-- The completion at `used_idx`: the descriptor is looked up and its buffer marked. -/
def complete [DecidableEq B] (d : Disk T B) : Except String (B × Disk T B) :=
  let id := (d.rings.used.ring (slot d.usedIdx)).toNat
  if h : id < NUM then
    if (d.info ⟨id, h⟩).status ≠ 0 then .error "virtio_disk_intr status"
    else
      match (d.info ⟨id, h⟩).b with
      | some b => .ok (b, { d with
          disk := update d.disk b false
          rings := { d.rings with acked := d.rings.acked + 1 } })
      | none => .error "null pointer"
  else .error "out of bounds"

/-- The device reads a request through the chain of descriptors, and where to put the status. -/
def request (d : Disk T B) (h : Idx) : Option (Request B × Idx) :=
  match (d.desc h).addr with
  | .op k =>
      let mid := d.desc (slot (d.desc h).next)
      match mid.addr with
      | .data b =>
          match (d.desc (slot mid.next)).addr with
          | .status j => some (⟨b, (d.ops k).write, (d.ops k).sector⟩, j)
          | _ => none
      | _ => none
  | _ => none

def take (d : Disk T B) : Option (Disk T B) :=
  if d.rings.device.seen ≠ d.rings.avail.idx then some { d with rings := d.rings.take } else none

def serve (d : Disk T B) (h : Idx) : Option (Disk T B) :=
  if h ∈ d.rings.device.inflight then
    (d.request h).map fun q => { d with
      info := update d.info q.2 ⟨(d.info q.2).b, 0⟩
      rings := d.rings.serve h
      log := d.log ++ ((d.chain h).map fun c => (c.call.id, q.1)).toList }
  else none

def post (d : Disk T B) (h : Idx) : Option (Disk T B) :=
  if h ∈ d.rings.device.finished then some { d with rings := d.rings.post h } else none

end Disk

/-- Where a thread stands in `virtio_disk_rw`, with `idx[0]` once it is known. -/
inductive RwPc
  | enter
  | start
  | alloc
  | retry (woke : Bool)
  | ring (i₀ : Idx)
  | publish (i₀ : Idx)
  | wait (i₀ : Idx)
  | wake
  | leave
  | ret
  | dead
  deriving DecidableEq

inductive IntrPc (B : Type)
  | enter
  | loop
  | woke (b : B)
  | step
  | ret
  | dead

inductive Pc (T B : Type)
  | idle
  | rw (c : Call T B) (pc : RwPc)
  | intr (pc : IntrPc B)

/-- Where a thread stands, and how many calls of `virtio_disk_rw` it has made. -/
structure Place (T B : Type) where
  calls : Nat
  pc : Pc T B

/-- A call or an interrupt, a step in it, and the steps of the device. -/
inductive Input (B : Type)
  | rw (b : B) (blockno : UInt32) (write : Bool)
  | intr
  | go
  | take
  | serve (h : Idx)
  | post (h : Idx)

section Program

variable [DecidableEq B]

/-- One step of `virtio_disk_rw`. Its caller holds the lock of the buffer, so it is the only one with
a call for it. -/
def virtioDiskRw (d : Disk T B) (c : Call T B) : RwPc → Option (Act (Disk T B) RwPc (Chan B))
  | .enter => if d.user c.b = none then some (.enter .start) else none
  | .start => some (.assign { d with user := update d.user c.b (some c.id) } .alloc)
  | .alloc =>
      match d.alloc3Desc with
      | .ok (some [i₀, i₁, i₂], d') => some (.assign (d'.format c i₀ i₁ i₂) (.ring i₀))
      | .ok (_, d') => some (.assign d' (.retry ((List.finRange NUM).any fun i => d.free i)))
      | .error m => some (.assign { d with panic := some m } .dead)
  | .retry true => some (.wakeup .free (.retry false))
  | .retry false => some (.sleep .free .alloc)
  | .ring i₀ => some (.assign { d with rings := d.rings.put i₀ } (.publish i₀))
  | .publish i₀ => some (.assign { d with rings := d.rings.publish i₀ } (.wait i₀))
  | .wait i₀ =>
      if d.disk c.b then some (.sleep (.buf c.b) (.wait i₀))
      else
        match d.finish c i₀ with
        | .ok d' => some (.assign d' .wake)
        | .error m => some (.assign { d with panic := some m } .dead)
  | .wake => some (.wakeup .free .leave)
  | .leave => some (.leave .ret)
  | .ret => none
  | .dead => none

def virtioDiskIntr (d : Disk T B) : IntrPc B → Option (Act (Disk T B) (IntrPc B) (Chan B))
  | .enter => some (.enter .loop)
  | .loop =>
      if d.usedIdx ≠ d.rings.used.idx then
        match d.complete with
        | .ok (b, d') => some (.assign d' (.woke b))
        | .error m => some (.assign { d with panic := some m } .dead)
      else some (.leave .ret)
  | .woke b => some (.wakeup (.buf b) .step)
  | .step => some (.assign { d with usedIdx := d.usedIdx + 1 } .loop)
  | .ret => none
  | .dead => none

def Pc.returned : Pc T B → Bool
  | .idle => true
  | .rw _ .ret => true
  | .intr .ret => true
  | _ => false

/-- A thread that has returned makes a call or handles an interrupt; otherwise it goes on. -/
def next (t : T) (_killed : Bool) (d : Disk T B) (l : Place T B) :
    Input B → Option (Act (Disk T B) (Place T B) (Chan B))
  | .rw b blockno write =>
      if l.pc.returned then
        some (.pass ⟨l.calls + 1, .rw ⟨(t, l.calls), b, blockno, write⟩ .enter⟩)
      else none
  | .intr => if l.pc.returned then some (.pass ⟨l.calls, .intr .enter⟩) else none
  | .go =>
      match l.pc with
      | .idle => none
      | .rw c pc => (virtioDiskRw d c pc).map (.map fun pc => ⟨l.calls, .rw c pc⟩)
      | .intr pc => (virtioDiskIntr d pc).map (.map fun pc => ⟨l.calls, .intr pc⟩)
  | _ => none

/-- The driver and the device. A thread waits for three descriptors, or for its buffer. -/
def client (T B : Type) [DecidableEq B] :
    Client T (Disk T B) (Place T B) (Chan B) (Input B) where
  next := next
  device d
    | .take => d.take
    | .serve h => d.serve h
    | .post h => d.post h
    | _ => none
  cond _ k d :=
    match k with
    | .free => ∃ i₀ i₁ i₂, [i₀, i₁, i₂].Nodup ∧ ∀ i ∈ [i₀, i₁, i₂], d.free i = true
    | .buf b => d.disk b = false

end Program

abbrev Sys (T B : Type) : Type := Monitor.State T (Disk T B) (Place T B) (Chan B)

def Sys.init (T B : Type) : Sys T B := State.init .new ⟨0, .idle⟩

theorem slot_ofNat (i : Idx) : slot (UInt16.ofNat i) = i := by
  revert i
  decide

theorem toNat_ofNat (i : Idx) : (UInt16.ofNat i).toNat = i := by
  revert i
  decide

theorem toNat_ofNat32 (i : Idx) : (UInt32.ofNat i).toNat = i := by
  revert i
  decide

namespace Chain

def descs (c : Chain T B) (h : Idx) : List Idx := [h, c.mid, c.last]

/-- The descriptors are linked as `virtio_disk_rw` formats them. -/
structure Linked (c : Chain T B) (d : Disk T B) (h : Idx) : Prop where
  nodup : (c.descs h).Nodup
  first : d.desc h = ⟨.op h, 16, VRING_DESC_F_NEXT, UInt16.ofNat c.mid⟩
  middle : d.desc c.mid = ⟨.data c.call.b, UInt32.ofNat BSIZE,
    (if c.call.write then 0 else VRING_DESC_F_WRITE) ||| VRING_DESC_F_NEXT, UInt16.ofNat c.last⟩
  status : d.desc c.last = ⟨.status h, 1, VRING_DESC_F_WRITE, 0⟩

/-- So are the operation and the note for the interrupt handler. -/
structure Formatted (c : Chain T B) (d : Disk T B) (h : Idx) : Prop extends c.Linked d h where
  op : d.ops h = ⟨c.call.write, c.call.sector⟩
  info : (d.info h).b = some c.call.b

end Chain

namespace Disk

variable {d : Disk T B}

theorem allocDesc_cases (d : Disk T B) :
    (∃ i, d.free i = true ∧ d.allocDesc = (some i, { d with free := update d.free i false })) ∨
      d.allocDesc = (none, d) := by
  unfold allocDesc
  split
  · next i hi => exact .inl ⟨i, find?_some hi, rfl⟩
  · exact .inr rfl

variable {i : Idx}

theorem freeDesc_ok (h : d.free i = false) :
    d.freeDesc i = .ok { d with
      desc := update d.desc i ⟨.null, 0, 0, 0⟩
      free := update d.free i true } := by
  rw [freeDesc, dif_pos i.isLt, if_neg (by simp [h])]

/-- `free` when the descriptors `got` are taken out. -/
def without (free : Idx → Bool) (got : List Idx) (i : Idx) : Bool := if i ∈ got then false else free i

theorem update_without (free : Idx → Bool) (got : List Idx) (i : Idx) :
    update (without free got) i false = without free (got ++ [i]) := by
  funext j
  by_cases hj : j = i
  · simp [hj, without]
  · simp [without, hj]

theorem update_without_cons {free : Idx → Bool} {got : List Idx} (hi : i ∉ got)
    (hfree : free i) : update (without free (i :: got)) i true = without free got := by
  funext j
  by_cases hj : j = i
  · simp [hj, without, hi, hfree]
  · simp [without, hj]

/-- `alloc3_desc` gives back what it has. -/
theorem freeDescs_ok (got : List Idx) (desc : Idx → Desc B) (hnodup : got.Nodup)
    (hfree : ∀ i ∈ got, d.free i = true) :
    ∃ desc', (∀ i, d.free i = false → desc' i = desc i) ∧
      got.foldlM (fun (d : Disk T B) (i : Idx) => d.freeDesc i)
        { d with desc := desc, free := without d.free got } = .ok { d with desc := desc' } := by
  induction got generalizing desc with
  | nil => exact ⟨desc, fun _ _ => rfl, rfl⟩
  | cons i got ih =>
    obtain ⟨hi, hnodup⟩ := nodup_cons.mp hnodup
    have hfreei := hfree i mem_cons_self
    have hbusy : without d.free (i :: got) i = false := by simp [without]
    obtain ⟨desc', hdesc, hrun⟩ := ih (update desc i ⟨.null, 0, 0, 0⟩) hnodup
      fun j hj => hfree j (mem_cons_of_mem i hj)
    refine ⟨desc', fun j hj => ?_, ?_⟩
    · have hji : j ≠ i := fun heq => by
        rw [heq, hfreei] at hj
        cases hj
      rw [hdesc j hj, update_of_ne hji]
    · rw [foldlM_cons, freeDesc_ok hbusy]
      dsimp only
      rw [update_without_cons hi hfreei]
      exact hrun

theorem alloc3From_cases (k : Nat) (got : List Idx) (hnodup : got.Nodup)
    (hfree : ∀ i ∈ got, d.free i = true) :
    (∃ is, is.length = got.length + k ∧ is.Nodup ∧ (∀ i ∈ is, d.free i = true) ∧
        alloc3From k { d with free := without d.free got } got =
          .ok (some is, { d with free := without d.free is })) ∨
      ∃ desc, (∀ i, d.free i = false → desc i = d.desc i) ∧
        alloc3From k { d with free := without d.free got } got =
          .ok (none, { d with desc := desc }) := by
  induction k generalizing got with
  | zero => exact .inl ⟨got, rfl, hnodup, hfree, rfl⟩
  | succ k ih =>
    rw [alloc3From]
    rcases allocDesc_cases { d with free := without d.free got } with ⟨i, hi, heq⟩ | heq
    · have hnew : i ∉ got ∧ d.free i = true := by
        by_cases hmem : i ∈ got
        · simp [without, hmem] at hi
        · simpa [without, hmem] using hi
      rw [heq]
      dsimp only
      rw [update_without]
      have hmore : ∀ j ∈ got ++ [i], d.free j = true := by
        intro j hj
        rcases mem_append.mp hj with hj | hj
        · exact hfree j hj
        · rw [mem_singleton.mp hj]
          exact hnew.2
      have hdistinct : (got ++ [i]).Nodup := by
        rw [← concat_eq_append]
        exact hnodup.concat hnew.1
      rcases ih (got ++ [i]) hdistinct hmore with ⟨is, hlen, his⟩ | hnone
      · refine .inl ⟨is, ?_, his⟩
        rw [hlen, length_append, length_singleton]
        omega
      · exact .inr hnone
    · rw [heq]
      obtain ⟨desc, hdesc, hrun⟩ := freeDescs_ok got d.desc hnodup hfree
      refine .inr ⟨desc, hdesc, ?_⟩
      dsimp only
      rw [hrun]
      rfl

/-- `alloc3_desc` gets three descriptors that were free, or leaves `free` and the descriptors in use
as they are. -/
theorem alloc3Desc_cases (d : Disk T B) :
    (∃ i0 i1 i2, [i0, i1, i2].Nodup ∧ (∀ i ∈ [i0, i1, i2], d.free i = true) ∧ d.alloc3Desc =
          .ok (some [i0, i1, i2], { d with free := without d.free [i0, i1, i2] })) ∨
      ∃ desc, (∀ i, d.free i = false → desc i = d.desc i) ∧
        d.alloc3Desc = .ok (none, { d with desc := desc }) := by
  rcases alloc3From_cases (d := d) 3 [] nodup_nil (by simp) with ⟨is, hlen, his⟩ | hnone
  · obtain ⟨i0, i1, i2, rfl⟩ := length_eq_three.mp hlen
    exact .inl ⟨i0, i1, i2, his⟩
  · exact .inr hnone

theorem freeChainFrom_next {j : Idx} {fuel : Nat} {a : Addr B} {len : UInt32} {flags : UInt16}
    (hfree : d.free i = false) (hdesc : d.desc i = ⟨a, len, flags, UInt16.ofNat j⟩)
    (hflags : flags &&& VRING_DESC_F_NEXT ≠ 0) :
    freeChainFrom (fuel + 1) d i = freeChainFrom fuel { d with
      desc := update d.desc i ⟨.null, 0, 0, 0⟩
      free := update d.free i true } j := by
  rw [freeChainFrom, freeDesc_ok hfree]
  simp only [hdesc, toNat_ofNat, Fin.isLt, ↓reduceDIte, Fin.eta]
  rw [if_pos hflags]

theorem freeChainFrom_last {fuel : Nat} {a : Addr B} {len : UInt32}
    {flags next : UInt16} (hfree : d.free i = false) (hdesc : d.desc i = ⟨a, len, flags, next⟩)
    (hflags : flags &&& VRING_DESC_F_NEXT = 0) :
    freeChainFrom (fuel + 1) d i = .ok { d with
      desc := update d.desc i ⟨.null, 0, 0, 0⟩
      free := update d.free i true } := by
  rw [freeChainFrom, freeDesc_ok hfree, hdesc]
  exact if_neg (not_not.mpr hflags)

/-- `free` when the descriptors `got` are given back. -/
def withAll (free : Idx → Bool) (got : List Idx) (i : Idx) : Bool := if i ∈ got then true else free i

/-- `free_chain` frees the three descriptors of a chain. -/
theorem freeChain_ok {c : Chain T B} {h : Idx} (hc : c.Linked d h)
    (hfree : ∀ i ∈ c.descs h, d.free i = false) :
    ∃ desc, (∀ i, i ∉ c.descs h → desc i = d.desc i) ∧
      d.freeChain h = .ok { d with desc := desc, free := withAll d.free (c.descs h) } := by
  have hnodup := hc.nodup
  simp only [Chain.descs, nodup_cons, mem_cons, not_mem_nil, or_false, not_or,
    not_false_eq_true, nodup_nil, and_true] at hnodup
  obtain ⟨⟨hhm, hhl⟩, hml⟩ := hnodup
  have hmid : ((if c.call.write then 0 else VRING_DESC_F_WRITE) ||| VRING_DESC_F_NEXT) &&&
      VRING_DESC_F_NEXT ≠ 0 := by
    cases c.call.write <;> decide
  refine ⟨update (update (update d.desc h ⟨.null, 0, 0, 0⟩)
    c.mid ⟨.null, 0, 0, 0⟩) c.last ⟨.null, 0, 0, 0⟩, ?_, ?_⟩
  · intro i hi
    simp only [Chain.descs, mem_cons, not_mem_nil, or_false, not_or] at hi
    rw [update_of_ne hi.2.2, update_of_ne hi.2.1, update_of_ne hi.1]
  have hwith : update (update (update d.free h true) c.mid true)
      c.last true = withAll d.free (c.descs h) := by
    funext i
    simp only [update_apply, withAll, Chain.descs, mem_cons, not_mem_nil, or_false]
    by_cases h0 : i = h <;> by_cases h1 : i = c.mid <;> by_cases h2 : i = c.last <;>
      simp [h0, h1, h2]
  have hfree1 : update d.free h true c.mid = false := by
    rw [update_of_ne (Ne.symm hhm)]
    exact hfree _ (by simp [Chain.descs])
  have hfree2 : update (update d.free h true) c.mid true c.last = false := by
    rw [update_of_ne (Ne.symm hml), update_of_ne (Ne.symm hhl)]
    exact hfree _ (by simp [Chain.descs])
  have hdesc1 : update d.desc h ⟨.null, 0, 0, 0⟩ c.mid = d.desc c.mid :=
    update_of_ne (Ne.symm hhm) ..
  have hdesc2 : update (update d.desc h ⟨.null, 0, 0, 0⟩) c.mid
      ⟨.null, 0, 0, 0⟩ c.last = d.desc c.last := by
    rw [update_of_ne (Ne.symm hml), update_of_ne (Ne.symm hhl)]
  rw [← hwith]
  change freeChainFrom 8 d h = _
  rw [freeChainFrom_next (hfree h (by simp [Chain.descs])) hc.first (by decide),
    freeChainFrom_next hfree1 (hdesc1.trans hc.middle) hmid,
    freeChainFrom_last hfree2 (hdesc2.trans hc.status) (by decide)]

/-- The device finds the request of the call. -/
theorem request_eq {c : Chain T B} {h : Idx} (hc : c.Formatted d h) :
    d.request h = some (c.call.request, h) := by
  simp only [request, hc.first, slot_ofNat, hc.middle, hc.status, hc.op]
  rfl

end Disk

end Xv6.Virtio
