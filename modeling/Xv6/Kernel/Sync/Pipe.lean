import Xv6.Framework.Monitor
import Xv6.Framework.RingBuffer

namespace Xv6.Ipc

open Monitor Monitor.Client RingBuffer Transition List UInt32

def PIPESIZE : Nat := 512

instance pipesize_neZero : NeZero PIPESIZE := ⟨by decide⟩

/-- `&pi->nread` and `&pi->nwrite`. -/
inductive Chan
  | nread
  | nwrite
  deriving DecidableEq

/-- `struct pipe` without its lock, and as history the bytes stored, with the call each is from, and
the bytes copied to readers. -/
structure Pipe (T : Type) where
  data : Fin PIPESIZE → UInt8
  nread : UInt32
  nwrite : UInt32
  readopen : Bool
  writeopen : Bool
  accepted : List ((T × Nat) × UInt8)
  returned : List UInt8

/-- The arguments of `pipewrite`: the bytes at `addr` and their number; `id` says which call of
which thread it is. -/
structure Write (T : Type) where
  id : T × Nat
  buf : Nat → UInt8
  n : Int

/-- Where a thread stands in `pipewrite`. `dirty` says whether it has stored a byte since it last
called `wakeup`. -/
inductive WritePc
  | enter
  | loop (i : Nat) (dirty : Bool)
  | sleep (i : Nat)
  | leave (i : Nat)
  | ret (i : Nat) (r : Int)
  deriving DecidableEq

inductive ReadPc
  | enter
  | wait
  | loop (i : Nat)
  | wake (i : Nat)
  | leave (i : Nat)
  | ret (r : Int)
  deriving DecidableEq

inductive ClosePc
  | enter
  | set
  | wake
  | leave
  | ret
  deriving DecidableEq

inductive Pc (T : Type)
  | idle
  | write (w : Write T) (pc : WritePc)
  | read (n : Int) (pc : ReadPc)
  | close (writable : Bool) (pc : ClosePc)

/-- Where a thread stands, and how many calls of `pipewrite` it has made. -/
structure Place (T : Type) where
  calls : Nat
  pc : Pc T

/-- A call, or in a call whether the next copy from or to user memory succeeds. -/
inductive Input
  | write (buf : Nat → UInt8) (n : Int)
  | read (n : Int)
  | close (writable : Bool)
  | go (ok : Bool)

def CopyOk : Input → Prop
  | .go ok => ok = true
  | _ => True

instance : DecidablePred CopyOk
  | .go ok => inferInstanceAs (Decidable (ok = true))
  | .write _ _ => inferInstanceAs (Decidable True)
  | .read _ => inferInstanceAs (Decidable True)
  | .close _ => inferInstanceAs (Decidable True)

variable {T : Type}

namespace Pipe

def new : Pipe T := ⟨fun _ => 0, 0, 0, true, true, [], []⟩

def Full (d : Pipe T) : Prop := d.nwrite = d.nread + UInt32.ofNat PIPESIZE

def Empty (d : Pipe T) : Prop := d.nread = d.nwrite

instance (d : Pipe T) : Decidable d.Full := inferInstanceAs (Decidable (_ = _))

instance (d : Pipe T) : Decidable d.Empty := inferInstanceAs (Decidable (_ = _))

/-- `pi->data[pi->nwrite++ % PIPESIZE] = ch`. -/
def store (d : Pipe T) (id : T × Nat) (ch : UInt8) : Pipe T :=
  { d with
    data := Function.update d.data (place PIPESIZE d.nwrite) ch
    nwrite := d.nwrite + 1
    accepted := d.accepted ++ [(id, ch)] }

/-- `ch = pi->data[pi->nread++ % PIPESIZE]`, which is then copied to the reader or not. -/
def fetch (d : Pipe T) (ok : Bool) : Pipe T :=
  { d with
    nread := d.nread + 1
    returned := if ok then d.returned ++ [d.data (place PIPESIZE d.nread)] else d.returned }

def shut (d : Pipe T) (writable : Bool) : Pipe T :=
  if writable then { d with writeopen := false } else { d with readopen := false }

def Open (d : Pipe T) : Prop := d.readopen = true ∨ d.writeopen = true

instance (d : Pipe T) : Decidable d.Open := inferInstanceAs (Decidable (_ ∨ _))

def queue (d : Pipe T) : List UInt8 := contents d.data d.nread d.nwrite

end Pipe

/-- One step of `pipewrite`; none once it has returned. -/
def pipewrite (killed : Bool) (d : Pipe T) (w : Write T) (ok : Bool) :
    WritePc → Option (Act (Pipe T) WritePc Chan)
  | .enter => some (.enter (.loop 0 false))
  | .loop i _ =>
      if i < w.n then
        if d.readopen = false ∨ killed = true then some (.leave (.ret i (-1)))
        else if d.Full then some (.wakeup .nread (.sleep i))
        else if ok then some (.assign (d.store w.id (w.buf i)) (.loop (i + 1) true))
        else some (.wakeup .nread (.leave i))
      else some (.wakeup .nread (.leave i))
  | .sleep i => some (.sleep .nwrite (.loop i false))
  | .leave i => some (.leave (.ret i i))
  | .ret _ _ => none

def piperead (killed : Bool) (d : Pipe T) (n : Int) (ok : Bool) :
    ReadPc → Option (Act (Pipe T) ReadPc Chan)
  | .enter => some (.enter .wait)
  | .wait =>
      if d.Empty ∧ d.writeopen = true then
        if killed = true then some (.leave (.ret (-1))) else some (.sleep .nread .wait)
      else some (.assign d (.loop 0))
  | .loop i =>
      if i < n ∧ ¬ d.Empty then
        some (.assign (d.fetch ok) (if ok then .loop (i + 1) else .wake i))
      else some (.wakeup .nwrite (.leave i))
  | .wake i => some (.wakeup .nwrite (.leave i))
  | .leave i => some (.leave (.ret i))
  | .ret _ => none

def pipeclose (d : Pipe T) (writable : Bool) : ClosePc → Option (Act (Pipe T) ClosePc Chan)
  | .enter => some (.enter .set)
  | .set => some (.assign (d.shut writable) .wake)
  | .wake => some (.wakeup (if writable then .nread else .nwrite) .leave)
  | .leave => some (.leave .ret)
  | .ret => none

def Pc.returned : Pc T → Bool
  | .idle => true
  | .write _ (.ret _ _) => true
  | .read _ (.ret _) => true
  | .close _ .ret => true
  | _ => false

/-- What the last call returned; `pipeclose` returns nothing. -/
def Pc.result : Pc T → Option Int
  | .write _ (.ret _ r) => some r
  | .read _ (.ret r) => some r
  | _ => none

/-- A thread that has returned makes a call, unless the pipe has been freed; one with a call goes on
with it. -/
def next (t : T) (killed : Bool) (d : Pipe T) (l : Place T) :
    Input → Option (Act (Pipe T) (Place T) Chan)
  | .write buf n =>
      if l.pc.returned ∧ d.Open then
        some (.pass ⟨l.calls + 1, .write ⟨(t, l.calls), buf, n⟩ .enter⟩)
      else none
  | .read n => if l.pc.returned ∧ d.Open then some (.pass ⟨l.calls, .read n .enter⟩) else none
  | .close w => if l.pc.returned ∧ d.Open then some (.pass ⟨l.calls, .close w .enter⟩) else none
  | .go ok =>
      match l.pc with
      | .idle => none
      | .write w pc => (pipewrite killed d w ok pc).map (.map fun pc => ⟨l.calls, .write w pc⟩)
      | .read n pc => (piperead killed d n ok pc).map (.map fun pc => ⟨l.calls, .read n pc⟩)
      | .close w pc => (pipeclose d w pc).map (.map fun pc => ⟨l.calls, .close w pc⟩)

/-- A pipe and the threads that use it. A reader waits until there is something to read or there is
no writer, a writer until there is space or there is no reader. -/
def client (T : Type) : Client T (Pipe T) (Place T) Chan Input where
  next := next
  device _ _ := none
  cond _ k d :=
    match k with
    | .nread => ¬ (d.Empty ∧ d.writeopen = true)
    | .nwrite => ¬ (d.Full ∧ d.readopen = true)

abbrev Sys (T : Type) : Type := Monitor.State T (Pipe T) (Place T) Chan

def Sys.init (T : Type) : Sys T := State.init .new ⟨0, .idle⟩

/-- The steps of a thread one by one. -/
inductive Next (t : T) (b : Bool) (d : Pipe T) (calls : Nat) :
    Pc T → Input → Act (Pipe T) (Place T) Chan → Prop
  | callWrite {pc : Pc T} {buf : Nat → UInt8} {n : Int} : Next t b d calls pc (.write buf n)
      (.pass ⟨calls + 1, .write ⟨(t, calls), buf, n⟩ .enter⟩)
  | callRead {pc : Pc T} {n : Int} :
      Next t b d calls pc (.read n) (.pass ⟨calls, .read n .enter⟩)
  | callClose {pc : Pc T} {writable : Bool} :
      Next t b d calls pc (.close writable) (.pass ⟨calls, .close writable .enter⟩)
  | write {w : Write T} {pc : WritePc} {ok : Bool} {a : Act (Pipe T) WritePc Chan}
      (step : pipewrite b d w ok pc = some a) :
      Next t b d calls (.write w pc) (.go ok) (a.map fun pc => ⟨calls, .write w pc⟩)
  | read {n : Int} {pc : ReadPc} {ok : Bool} {a : Act (Pipe T) ReadPc Chan}
      (step : piperead b d n ok pc = some a) :
      Next t b d calls (.read n pc) (.go ok) (a.map fun pc => ⟨calls, .read n pc⟩)
  | close {writable ok : Bool} {pc : ClosePc} {a : Act (Pipe T) ClosePc Chan}
      (step : pipeclose d writable pc = some a) :
      Next t b d calls (.close writable pc) (.go ok) (a.map fun pc => ⟨calls, .close writable pc⟩)

variable {d : Pipe T} {calls : Nat} {a : Act (Pipe T) (Place T) Chan}

theorem next_cases {t : T} {b : Bool} {pc : Pc T} {i : Input}
    (h : next t b d ⟨calls, pc⟩ i = some a) : Next t b d calls pc i a := by
  cases i with
  | write buf n =>
    rw [next] at h
    split_ifs at h
    cases h
    exact .callWrite
  | read n =>
    rw [next] at h
    split_ifs at h
    cases h
    exact .callRead
  | close writable =>
    rw [next] at h
    split_ifs at h
    cases h
    exact .callClose
  | go ok =>
    cases pc with
    | idle => cases h
    | write w pc =>
      obtain ⟨a', ha', rfl⟩ := Option.map_eq_some_iff.mp h
      exact .write ha'
    | read n pc =>
      obtain ⟨a', ha', rfl⟩ := Option.map_eq_some_iff.mp h
      exact .read ha'
    | close writable pc =>
      obtain ⟨a', ha', rfl⟩ := Option.map_eq_some_iff.mp h
      exact .close ha'

variable {w : Write T} {ok writable : Bool} {pc : WritePc} {i : Nat} {n : Int}

section Stream

variable [DecidableEq T]

def Pipe.bytesOf (d : Pipe T) (id : T × Nat) : List UInt8 :=
  (d.accepted.filter fun b => b.1 = id).map Prod.snd

def WritePc.count : WritePc → Nat
  | .enter => 0
  | .loop i _ => i
  | .sleep i => i
  | .leave i => i
  | .ret i _ => i

/-- The call `w` has stored the first bytes of its argument, and returns their number or -1. -/
structure Write.Stored (w : Write T) (pc : WritePc) (d : Pipe T) : Prop where
  bytes : d.bytesOf w.id = (List.range pc.count).map w.buf
  le : pc.count ≤ w.n.toNat
  ret : ∀ i r, pc = .ret i r → r = -1 ∨ r = i

/-- The bytes that went to readers and those in the ring are the ones from the writers. -/
structure Pipe.Fifo (d : Pipe T) : Prop where
  bound : (d.nwrite - d.nread).toNat ≤ PIPESIZE
  stream : d.returned ++ d.queue = d.accepted.map Prod.snd

section

omit [DecidableEq T]

theorem Pipe.full_iff : d.Full ↔ (d.nwrite - d.nread).toNat = PIPESIZE := by
  have hsize : (ofNat PIPESIZE).toNat = PIPESIZE := rfl
  rw [← hsize, UInt32.toNat_inj, Full]
  generalize ofNat PIPESIZE = size
  constructor
  · intro heq
    rw [heq]
    grind
  · intro heq
    rw [← heq]
    grind

theorem Pipe.Fifo.store (h : d.Fifo) (hfull : ¬ d.Full) (id : T × Nat) (ch : UInt8) :
    (d.store id ch).Fifo := by
  have hlt : (d.nwrite - d.nread).toNat < PIPESIZE :=
    lt_of_le_of_ne h.bound fun heq => hfull (full_iff.mpr heq)
  have hsize : PIPESIZE < 2 ^ 32 - 1 := by decide
  constructor
  · change (d.nwrite + 1 - d.nread).toNat ≤ PIPESIZE
    rw [toNat_sub_add_one (hlt.trans hsize)]
    exact hlt
  · change d.returned ++ contents (Function.update d.data (place PIPESIZE d.nwrite) ch) d.nread
      (d.nwrite + 1) = (d.accepted ++ [(id, ch)]).map Prod.snd
    rw [contents_push (by decide) hlt (by decide), ← append_assoc, map_append]
    exact congrArg (· ++ [ch]) h.stream

theorem Pipe.Fifo.fetch (h : d.Fifo) (hempty : ¬ d.Empty) : (d.fetch true).Fifo := by
  have hne : d.nwrite ≠ d.nread := fun heq => hempty heq.symm
  constructor
  · have hsucc := toNat_sub_succ hne
    have hbound := h.bound
    change (d.nwrite - (d.nread + 1)).toNat ≤ PIPESIZE
    omega
  · change d.returned ++ [d.data (place PIPESIZE d.nread)] ++
      contents d.data (d.nread + 1) d.nwrite = d.accepted.map Prod.snd
    rw [append_assoc, singleton_append, ← contents_pop hne]
    exact h.stream

theorem Pipe.Fifo.shut (h : d.Fifo) (writable : Bool) : (d.shut writable).Fifo := by
  cases writable
  all_goals exact ⟨h.bound, h.stream⟩

end

variable {id : T × Nat}

theorem Pipe.bytesOf_store {ch : UInt8} : (d.store id ch).bytesOf id = d.bytesOf id ++ [ch] := by
  simp [bytesOf, store]

theorem Pipe.bytesOf_store_of_ne {id' : T × Nat} {ch : UInt8} (h : id' ≠ id) :
    (d.store id ch).bytesOf id' = d.bytesOf id' := by
  simp [bytesOf, store, h.symm]

theorem Pipe.bytesOf_shut : (d.shut writable).bytesOf id = d.bytesOf id := by
  cases writable <;> rfl

/-- What holds of the calls of a thread. -/
structure Stands (t : T) (l : Place T) (d : Pipe T) : Prop where
  fresh : ∀ n, l.calls ≤ n → d.bytesOf (t, n) = []
  write : ∀ w pc, l.pc = .write w pc → w.id.1 = t ∧ w.id.2 < l.calls ∧ w.Stored pc d

/-- What a reader knows while it holds the lock. -/
def Held (l : Place T) (d : Pipe T) : Prop :=
  match l.pc with
  | .read _ (.loop i) => i = 0 → ¬ (d.Empty ∧ d.writeopen = true)
  | .read n (.leave i) => i = 0 → 0 < n → d.Empty ∧ d.writeopen = false
  | .read _ (.wake _) => False
  | _ => True

def streamed (T : Type) [DecidableEq T] : Assertions T (Pipe T) (Place T) where
  inv := Pipe.Fifo
  rest _ := True
  stands := Stands
  held _ := Held

variable {t u : T} {b : Bool} {d d' : Pipe T} {l : Place T}

theorem Stands.congr (h : Stands t l d) (hbytes : ∀ id, d'.bytesOf id = d.bytesOf id) :
    Stands t l d' where
  fresh n hn := (hbytes _).trans (h.fresh n hn)
  write w pc hpc := have hw := h.write w pc hpc
    ⟨hw.1, hw.2.1, (hbytes _).trans hw.2.2.bytes, hw.2.2.le, hw.2.2.ret⟩

theorem Stands.store_of_ne (h : Stands u l d) (hw : w.id.1 = t) (hut : u ≠ t)
    (ch : UInt8) : Stands u l (d.store w.id ch) where
  fresh n hn := by
    have hne : (u, n) ≠ w.id := fun heq => hut ((congrArg Prod.fst heq).trans hw)
    rw [Pipe.bytesOf_store_of_ne hne]
    exact h.fresh n hn
  write w' pc hpc := by
    obtain ⟨hid, hlt, hst⟩ := h.write w' pc hpc
    have hne : w'.id ≠ w.id := fun heq =>
      hut (hid.symm.trans ((congrArg Prod.fst heq).trans hw))
    exact ⟨hid, hlt, (Pipe.bytesOf_store_of_ne hne).trans hst.bytes, hst.le, hst.ret⟩

theorem Stands.goto {pc' : WritePc}
    (h : Stands t ⟨calls, .write w pc⟩ d) (hcount : pc'.count = pc.count)
    (hret : ∀ i r, pc' = .ret i r → r = -1 ∨ r = i) : Stands t ⟨calls, .write w pc'⟩ d where
  fresh := h.fresh
  write w' pc'' hpc := by
    cases hpc
    obtain ⟨hid, hlt, hst⟩ := h.write w pc rfl
    exact ⟨hid, hlt, hcount ▸ hst.bytes, hcount ▸ hst.le, hret⟩

theorem Stands.other (h : Stands t l d) {pc : Pc T} (hpc : ∀ w p, pc ≠ .write w p) :
    Stands t ⟨l.calls, pc⟩ d where
  fresh := h.fresh
  write w p heq := absurd heq (hpc w p)

theorem Stands.store {dirty dirty' : Bool}
    (h : Stands t ⟨calls, .write w (.loop i dirty)⟩ d) (hi : (i : Int) < w.n) :
    Stands t ⟨calls, .write w (.loop (i + 1) dirty')⟩ (d.store w.id (w.buf i)) := by
  obtain ⟨hid, hlt, hst⟩ := h.write w _ rfl
  constructor
  · intro n hn
    have hne : (t, n) ≠ w.id := fun heq => by
      have hsnd := congrArg Prod.snd heq
      dsimp only at hsnd hn hlt
      omega
    rw [Pipe.bytesOf_store_of_ne hne]
    exact h.fresh n hn
  intro w' pc hpc
  cases hpc
  refine ⟨hid, hlt, ?_, ?_, fun i r heq => by cases heq⟩
  · rw [Pipe.bytesOf_store, hst.bytes]
    change _ = (range (i + 1)).map w.buf
    rw [range_succ, map_append]
    rfl
  · change i + 1 ≤ w.n.toNat
    omega

theorem pipewrite_streamed {a : Act (Pipe T) WritePc Chan} (hinv : d.Fifo)
    (hst : Stands t ⟨calls, .write w pc⟩ d) (h : pipewrite b d w true pc = some a) :
    (streamed T).After t d (a.map fun pc => ⟨calls, .write w pc⟩) := by
  cases pc with
  | enter =>
    cases h
    exact fun _ => ⟨hst.goto rfl fun i r heq => (by cases heq), trivial⟩
  | loop i dirty =>
    have hleave : Stands t ⟨calls, .write w (.leave i)⟩ d :=
      hst.goto rfl fun i r heq => by cases heq
    simp only [pipewrite, ↓reduceIte] at h
    split_ifs at h with hi hexit hfull
    · cases h
      refine ⟨trivial, hst.goto rfl fun i r heq => ?_⟩
      cases heq
      exact .inl rfl
    · cases h
      exact ⟨hst.goto rfl fun i r heq => (by cases heq), trivial⟩
    · cases h
      exact ⟨hinv.store hfull _ _, hst.store hi, trivial,
        fun u m hut hu => hu.store_of_ne (hst.write w _ rfl).1 hut _⟩
    · cases h
      exact ⟨hleave, trivial⟩
  | sleep i =>
    cases h
    exact ⟨trivial, hst.goto rfl fun i r heq => (by cases heq), fun _ _ _ _ => trivial⟩
  | leave i =>
    cases h
    refine ⟨trivial, hst.goto rfl fun i r heq => ?_⟩
    cases heq
    exact .inr rfl
  | ret i r => cases h

theorem piperead_streamed {pc : ReadPc} {a : Act (Pipe T) ReadPc Chan}
    (hinv : d.Fifo) (hst : Stands t ⟨calls, .read n pc⟩ d)
    (hheld : ActInside a → Held ⟨calls, .read n pc⟩ d) (h : piperead b d n true pc = some a) :
    (streamed T).After t d (a.map fun pc => ⟨calls, .read n pc⟩) := by
  have hread : ∀ pc, Stands t ⟨calls, .read n pc⟩ d := fun pc => hst.other (by simp)
  cases pc with
  | enter =>
    cases h
    exact fun _ => ⟨hread _, trivial⟩
  | wait =>
    rw [piperead] at h
    split_ifs at h with hwait hkilled
    · cases h
      exact ⟨trivial, hread _⟩
    · cases h
      exact ⟨trivial, hread _, fun _ _ _ _ => trivial⟩
    · cases h
      exact ⟨hinv, hread _, fun _ => hwait, fun _ _ _ => id⟩
  | loop i =>
    simp only [piperead, ↓reduceIte] at h
    split_ifs at h with hmore
    · cases h
      refine ⟨hinv.fetch hmore.2, (hread _).congr fun _ => rfl, fun hi => ?_,
        fun u m _ hu => hu.congr fun _ => rfl⟩
      cases hi
    cases h
    refine ⟨hread _, fun hi hn => ?_⟩
    have hwait := hheld trivial hi
    have hempty : d.Empty := by
      by_contra hne
      exact hmore ⟨by omega, hne⟩
    exact ⟨hempty, by simpa using fun hopen => hwait ⟨hempty, hopen⟩⟩
  | wake i =>
    cases h
    exact absurd (hheld trivial) id
  | leave i =>
    cases h
    exact ⟨trivial, hread _⟩
  | ret r => cases h

theorem pipeclose_streamed {pc : ClosePc} {a : Act (Pipe T) ClosePc Chan} (hinv : d.Fifo)
    (hst : Stands t ⟨calls, .close writable pc⟩ d) (h : pipeclose d writable pc = some a) :
    (streamed T).After t d (a.map fun pc => ⟨calls, .close writable pc⟩) := by
  have hclose : ∀ pc, Stands t ⟨calls, .close writable pc⟩ d := fun pc => hst.other (by simp)
  cases pc with
  | enter =>
    cases h
    exact fun _ => ⟨hclose _, trivial⟩
  | set =>
    cases h
    exact ⟨hinv.shut _, (hclose _).congr fun _ => Pipe.bytesOf_shut, trivial,
      fun u m _ hu => hu.congr fun _ => Pipe.bytesOf_shut⟩
  | wake =>
    cases h
    exact ⟨hclose _, trivial⟩
  | leave =>
    cases h
    exact ⟨trivial, hclose _⟩
  | ret => cases h

/-- The outline of the stream, for copies that succeed. -/
def streamOutline (T : Type) [DecidableEq T] : (client T).Outline CopyOk where
  toAssertions := streamed T
  next := by
    intro t b d l i a hok hinv hst hheld h
    obtain ⟨calls, pc⟩ := l
    cases next_cases h with
    | callWrite =>
      refine ⟨fun n hn => hst.fresh n (Nat.le_of_succ_le hn), fun w pc hpc => ?_⟩
      cases hpc
      exact ⟨rfl, Nat.lt_succ_self _, hst.fresh _ le_rfl, Nat.zero_le _, fun i r heq => by cases heq⟩
    | callRead => exact hst.other (by simp)
    | callClose => exact hst.other (by simp)
    | @write w pc ok a step =>
      obtain rfl : ok = true := hok
      exact pipewrite_streamed hinv hst step
    | @read n pc ok a step =>
      obtain rfl : ok = true := hok
      exact piperead_streamed hinv hst (fun hin => hheld (actInside_map.mpr hin)) step
    | close step => exact pipeclose_streamed hinv hst step
  device := by
    intro d i d' _ _ h
    cases h

omit [DecidableEq T] in
/-- A read returns 0 when it leaves the monitor with no byte copied. -/
theorem next_returns_zero {i : Input} (h : next t b d l i = some a)
    (ha : a.place.pc = .read n (.ret 0)) : l.pc = .read n (.leave 0) ∧ ActInside a := by
  obtain ⟨calls, pc⟩ := l
  cases next_cases h with
  | callWrite | callRead | callClose => cases ha
  | write | close =>
    rw [Act.place_map] at ha
    cases ha
  | @read m pc ok a step =>
    rw [Act.place_map] at ha
    injection ha with hm hret
    subst hm
    cases pc with
    | enter | wake =>
      cases step
      cases hret
    | wait | loop =>
      rw [piperead] at step
      split_ifs at step <;> cases step <;> cases hret
    | leave j =>
      cases step
      injection hret with hj
      have hj0 : j = 0 := by omega
      subst hj0
      exact ⟨rfl, trivial⟩
    | ret r => cases step

/-- A pipe is a first-in first-out stream. The counters are at most `PIPESIZE` apart, what readers
got followed by what is in the ring is what was accepted from writers, what was accepted from a call
of `pipewrite` is the first bytes of its argument and the number it returns is their number, and
`piperead` returns 0 only if the pipe is empty and has no writer. -/
theorem pipe_is_fifo {ls : List (Label T Input)} {s : Sys T}
    (h : Run (fun s l s' => (client T).Step s l s' ∧ LabelOk CopyOk l) (Sys.init T) ls s) :
    (s.data.nwrite - s.data.nread).toNat ≤ PIPESIZE ∧
      s.data.returned ++ s.data.queue = s.data.accepted.map Prod.snd ∧
      (∀ t w pc, (s.loc t).pc = .write w pc →
        s.data.bytesOf w.id = (List.range pc.count).map w.buf ∧ pc.count ≤ w.n.toNat ∧
          ∀ i r, pc = .ret i r → 0 ≤ r → r = i) ∧
      ∀ lab s', (client T).Step s lab s' → ∀ t n, (s.loc t).pc ≠ .read n (.ret 0) →
        (s'.loc t).pc = .read n (.ret 0) → 0 < n → s.data.Empty ∧ s.data.writeopen = false := by
  have hzero : (0 - 0 : UInt32).toNat ≤ PIPESIZE := by decide
  have hnew : (Pipe.new : Pipe T).Fifo := ⟨hzero, contents_self⟩
  have hidle : ∀ t, Stands t ⟨0, .idle⟩ (Pipe.new : Pipe T) := fun t =>
    ⟨fun _ _ => rfl, fun w pc hpc => by cases hpc⟩
  have hholds := (streamOutline T).run h hnew trivial hidle
  refine ⟨hholds.inv.bound, hholds.inv.stream, ?_, ?_⟩
  · intro t w pc hpc
    obtain ⟨-, -, hst⟩ := (hholds.stands t).write w pc hpc
    refine ⟨hst.bytes, hst.le, fun i r heq hr => ?_⟩
    rcases hst.ret i r heq with hneg | hcount
    · omega
    · exact hcount
  intro lab s' hstep t n hbefore hafter hn
  have hne : s'.loc t ≠ s.loc t := fun heq => hbefore (heq ▸ hafter)
  obtain ⟨i, a, rfl, hnext, hin, hloc⟩ := hstep.move.loc_ne hne
  obtain ⟨hpc, hact⟩ := next_returns_zero hnext (hloc ▸ hafter)
  have hheld : Held (s.loc t) s.data := hholds.held t (hin hact)
  rw [Held, hpc] at hheld
  exact hheld rfl hn

/-- One byte is written and read. -/
theorem pipe_is_fifo_one_byte :
    ∃ s : Sys Bool, (s.loc false).pc.result = some 1 ∧ s.data.returned = [7] ∧
      s.data.returned ++ s.data.queue = s.data.accepted.map Prod.snd := by
  have hex : (exec (guarded (client Bool).step fun _ l => LabelOk CopyOk l) (Sys.init Bool)
      [.run true (.write (fun _ => 7) 1), .run true (.go true), .run true (.go true),
        .run false (.read 1), .run true (.go true), .run true (.go true),
        .run false (.go true), .run false (.go true), .run false (.go true),
        .run false (.go true), .run false (.go true)]).map
      (fun s => ((s.loc false).pc.result, s.data.returned)) = some (some 1, [7]) := by
    decide +kernel
  obtain ⟨s, hs, hval⟩ := Option.map_eq_some_iff.mp hex
  obtain ⟨-, hstream, -⟩ := pipe_is_fifo (run_of_exec_guarded hs)
  exact ⟨s, congrArg Prod.fst hval, congrArg Prod.snd hval, hstream⟩

end Stream

section Peers

/-- The channels of which a thread at this place still has to wake up the sleepers. -/
def Owes (l : Place T) (k : Chan) : Prop :=
  match l.pc, k with
  | .write _ (.loop _ dirty), .nread => dirty = true
  | .read _ (.loop i), .nwrite => 0 < i
  | .read _ (.wake _), .nwrite => True
  | .close writable .wake, k => k = if writable then .nread else .nwrite
  | _, _ => False

/-- What a writer knows while it holds the lock. -/
def Tested (l : Place T) (d : Pipe T) : Prop :=
  match l.pc with
  | .write _ (.loop _ dirty) => dirty = true → d.readopen = true
  | .write _ (.sleep _) => d.Full ∧ d.readopen = true
  | _ => True

/-- The thread is in the loop of `pipewrite`, about to test `killed`, and has stored bytes since it
last called `wakeup`. -/
def Pc.unannounced : Pc T → Bool
  | .write w (.loop i true) => (i : Int) < w.n
  | _ => false

/-- A writer with bytes that it has not announced has not been killed when it tests for that. -/
def Considerate (s : Sys T) : Label T Input → Prop
  | .run t _ => (s.loc t).pc.unannounced = true → s.killed t = false
  | _ => True

instance (s : Sys T) : ∀ l, Decidable (Considerate s l)
  | .run t _ => inferInstanceAs (Decidable ((s.loc t).pc.unannounced = true → s.killed t = false))
  | .kill _ _ => inferInstanceAs (Decidable True)
  | .rouse _ => inferInstanceAs (Decidable True)
  | .device _ => inferInstanceAs (Decidable True)

def tested (T : Type) : Assertions T (Pipe T) (Place T) where
  inv _ := True
  rest _ := True
  stands _ _ _ := True
  held _ := Tested

variable {t : T} {b : Bool} {d : Pipe T} {calls : Nat}

theorem pipewrite_tested {a : Act (Pipe T) WritePc Chan} (h : pipewrite b d w ok pc = some a) :
    (tested T).After t d (a.map fun pc => ⟨calls, .write w pc⟩) := by
  cases pc with
  | enter =>
    cases h
    exact fun _ => ⟨trivial, fun hdirty => by cases hdirty⟩
  | loop i dirty =>
    have hopen : ¬ (d.readopen = false ∨ b = true) → d.readopen = true := fun hexit => by
      simpa using fun hclosed => hexit (.inl hclosed)
    rw [pipewrite] at h
    split_ifs at h with hi hexit hfull hok
    · cases h
      exact ⟨trivial, trivial⟩
    · cases h
      exact ⟨trivial, hfull, hopen hexit⟩
    · cases h
      exact ⟨trivial, trivial, fun _ => hopen hexit, fun _ _ _ => id⟩
    all_goals
      cases h
      exact ⟨trivial, trivial⟩
  | sleep i =>
    cases h
    exact ⟨trivial, trivial, fun d _ _ _ hdirty => by cases hdirty⟩
  | leave i =>
    cases h
    exact ⟨trivial, trivial⟩
  | ret i r => cases h

/-- Only a writer has something to remember. -/
theorem tested_of_ne (h : ∀ w pc, a.place.pc ≠ .write w pc) : (tested T).After t d a := by
  have hheld : ∀ d, Tested a.place d := by
    intro d
    unfold Tested
    split
    · next w i dirty heq => exact absurd heq (h w _)
    · next w i heq => exact absurd heq (h w _)
    · trivial
  cases a with
  | pass l => trivial
  | enter l => exact fun _ => ⟨trivial, hheld d⟩
  | assign d' l => exact ⟨trivial, trivial, hheld d', fun _ _ _ => id⟩
  | wakeup k l => exact ⟨trivial, hheld d⟩
  | sleep k l => exact ⟨trivial, trivial, fun d' _ _ _ => hheld d'⟩
  | leave l => exact ⟨trivial, trivial⟩

/-- The outline of the tests a writer makes. -/
def testedOutline (T : Type) [DecidableEq T] : (client T).Outline fun _ => True where
  toAssertions := tested T
  next := by
    intro t b d l i a _ _ _ hheld h
    obtain ⟨calls, pc⟩ := l
    cases next_cases h with
    | callWrite => trivial
    | callRead => trivial
    | callClose => trivial
    | write step => exact pipewrite_tested step
    | read step => exact tested_of_ne fun w pc => by simp [Act.place_map]
    | close step => exact tested_of_ne fun w pc => by simp [Act.place_map]
  device := by
    intro d i d' _ _ h
    cases h

theorem pipewrite_marked {a : Act (Pipe T) WritePc Chan} (htested : Tested ⟨calls, .write w pc⟩ d)
    (hkilled : ∀ i, pc = .loop i true → (i : Int) < w.n → b = false)
    (h : pipewrite b d w ok pc = some a) :
    (client T).MarkedAct Owes t d ⟨calls, .write w pc⟩ (a.map fun pc => ⟨calls, .write w pc⟩) := by
  cases pc with
  | enter =>
    cases h
    trivial
  | loop i dirty =>
    rw [pipewrite] at h
    split_ifs at h with hi hexit hfull hok
    · cases h
      intro k hk
      cases k with
      | nwrite => exact hk
      | nread =>
        have hdirty : dirty = true := hk
        subst hdirty
        have hopen : d.readopen = true := htested rfl
        have hlives := hkilled i rfl hi
        simp [hopen, hlives] at hexit
    · cases h
      intro k hne hk
      cases k with
      | nread => exact absurd rfl hne
      | nwrite => exact hk
    · cases h
      intro k hk
      cases k with
      | nread => rfl
      | nwrite =>
        -- there was space already
        rcases hk with hk | ⟨u, hno, -⟩
        · exact hk
        · exact absurd (fun hcond => hfull hcond.1) hno
    all_goals
      cases h
      intro k hne hk
      cases k with
      | nread => exact absurd rfl hne
      | nwrite => exact hk
  | sleep i =>
    cases h
    refine ⟨fun k hk => ?_, fun hcond => hcond htested⟩
    cases k <;> exact hk
  | leave i =>
    cases h
    intro k hk
    cases k <;> exact hk
  | ret i r => cases h

theorem piperead_marked {pc : ReadPc} {a : Act (Pipe T) ReadPc Chan}
    (h : piperead b d n ok pc = some a) :
    (client T).MarkedAct Owes t d ⟨calls, .read n pc⟩ (a.map fun pc => ⟨calls, .read n pc⟩) := by
  cases pc with
  | enter =>
    cases h
    trivial
  | wait =>
    rw [piperead] at h
    split_ifs at h with hwait hkilled
    · cases h
      intro k hk
      cases k <;> exact hk
    · cases h
      refine ⟨fun k hk => ?_, fun hcond => hcond hwait⟩
      cases k <;> exact hk
    · cases h
      intro k hk
      rcases hk with hk | ⟨u, hno, hyes⟩
      · cases k <;> exact absurd hk id
      · exact absurd hyes hno
  | loop i =>
    rw [piperead] at h
    by_cases hmore : (i : Int) < n ∧ ¬ d.Empty
    · rw [if_pos hmore] at h
      cases h
      intro k hk
      cases k with
      | nwrite =>
        cases ok
        · trivial
        · exact Nat.succ_pos i
      | nread =>
        -- there was something to read already
        rcases hk with hk | ⟨u, hno, -⟩
        · exact absurd hk id
        · exact absurd (fun hcond => hmore.2 hcond.1) hno
    · rw [if_neg hmore] at h
      cases h
      intro k hne hk
      cases k with
      | nwrite => exact absurd rfl hne
      | nread => exact hk
  | wake i =>
    cases h
    intro k hne hk
    cases k with
    | nwrite => exact absurd rfl hne
    | nread => exact hk
  | leave i =>
    cases h
    intro k hk
    cases k <;> exact hk
  | ret r => cases h

theorem pipeclose_marked {pc : ClosePc} {a : Act (Pipe T) ClosePc Chan}
    (h : pipeclose d writable pc = some a) :
    (client T).MarkedAct Owes t d ⟨calls, .close writable pc⟩
      (a.map fun pc => ⟨calls, .close writable pc⟩) := by
  cases pc with
  | enter =>
    cases h
    trivial
  | set =>
    cases h
    intro k hk
    rcases hk with hk | ⟨u, hno, hyes⟩
    · exact absurd hk id
    · cases writable <;> cases k
      · exact absurd hyes hno
      · rfl
      · rfl
      · exact absurd hyes hno
  | wake =>
    cases h
    intro k hne hk
    exact absurd hk hne
  | leave =>
    cases h
    exact fun k hk => hk
  | ret => cases h

/-- In a run of considerate steps every thread wakes up whom it has to. -/
theorem marked_of_considerate {s : Sys T} {lab : Label T Input} (h : Considerate s lab)
    (hheld : ∀ t, s.lock = some t → Tested (s.loc t) s.data) : (client T).Marked Owes s lab := by
  cases lab with
  | kill | rouse => trivial
  | device i =>
    intro d hd
    cases hd
  | run t i =>
    intro hlock a hnext
    have htested := hheld t hlock
    rw [Considerate] at h
    revert h htested hnext
    generalize s.loc t = l
    obtain ⟨calls, pc⟩ := l
    intro h hnext htested
    cases next_cases hnext with
    | callWrite | callRead | callClose => trivial
    | @write w pc ok a step =>
      refine pipewrite_marked htested (fun i hpc hi => ?_) step
      subst hpc
      exact h (decide_eq_true hi)
    | read step => exact piperead_marked step
    | close step => exact pipeclose_marked step

variable [DecidableEq T]

/-- No peer is stuck: in a run of considerate steps, whenever nobody holds the lock, a reader that
sleeps finds the pipe empty with a writer, and a writer that sleeps finds it full with a reader. -/
theorem pipe_peers_not_stuck {ls : List (Label T Input)} {s : Sys T}
    (h : Run (fun s l s' => (client T).Step s l s' ∧ Considerate s l) (Sys.init T) ls s)
    (hfree : s.lock = none) :
    (∀ t, s.status t = .asleep .nread → s.data.Empty ∧ s.data.writeopen = true) ∧
      ∀ t, s.status t = .asleep .nwrite → s.data.Full ∧ s.data.readopen = true := by
  have hstart : (testedOutline T).Holds (Sys.init T) := .init trivial trivial fun _ => trivial
  have hmarked : Run (fun s l s' => (client T).Step s l s' ∧ (client T).Marked Owes s l)
      (Sys.init T) ls s := by
    have hok : ∀ l : Label T Input, LabelOk (fun _ => True) l := fun l => by cases l <;> trivial
    refine (h.with_invariant (testedOutline T).Holds hstart ?_).mono ?_
    · intro s l s' hs hstep
      exact hs.move hstep.1.move (hok l)
    · intro s l s' hstep
      exact ⟨hstep.1.1, marked_of_considerate hstep.1.2 hstep.2.held⟩
  constructor
  all_goals
    intro t ht
    exact not_not.mp (no_lost_wakeup_of_marked hmarked hfree ht)

/-- A reader sleeps on a new pipe. -/
theorem pipe_peers_not_stuck_reader :
    ∃ s : Sys Bool, s.status false = .asleep .nread ∧ s.data.Empty ∧ s.data.writeopen = true := by
  have hex : (exec (guarded (client Bool).step Considerate) (Sys.init Bool)
      [.run false (.read 1), .run false (.go true), .run false (.go true)]).map
      (fun s => (s.lock, s.status false)) = some (none, .asleep .nread) := by
    decide +kernel
  obtain ⟨s, hs, hval⟩ := Option.map_eq_some_iff.mp hex
  have hasleep : s.status false = .asleep .nread := congrArg Prod.snd hval
  have hpeers := pipe_peers_not_stuck (run_of_exec_guarded hs) (congrArg Prod.fst hval)
  exact ⟨s, hasleep, hpeers.1 false hasleep⟩

/-- A reader sleeps, a writer stores the first of two bytes and is killed before it tests for that:
it leaves without a `wakeup`, and the reader goes on sleeping with a byte in the pipe. -/
theorem killed_writer_leaves_reader_asleep :
    ∃ (ls : List (Label Bool Input)) (s : Sys Bool), Run (client Bool).Step (Sys.init Bool) ls s ∧
      s.lock = none ∧ s.status false = .asleep .nread ∧ ¬ s.data.Empty := by
  have hex : (exec (guarded (client Bool).step fun _ _ => True) (Sys.init Bool)
      [.run false (.read 1), .run false (.go true), .run false (.go true),
        .run true (.write (fun _ => 7) 2), .run true (.go true), .run true (.go true),
        .kill true true, .run true (.go true)]).map
      (fun s => (s.lock, s.status false, decide s.data.Empty)) =
        some (none, .asleep .nread, false) := by
    decide +kernel
  obtain ⟨s, hs, hval⟩ := Option.map_eq_some_iff.mp hex
  have hrun : Run (client Bool).Step (Sys.init Bool) _ s :=
    (run_of_exec_guarded hs).mono fun _ _ _ hstep => hstep.1
  exact ⟨_, s, hrun, congrArg Prod.fst hval, congrArg (·.2.1) hval,
    of_decide_eq_false (congrArg (·.2.2) hval)⟩

end Peers

section Delivery

variable {killed : Bool} {n : Int} {copies : Nat → Bool} {d d' : Pipe T}

/-- The rest of a call of `piperead` by a thread that holds the lock: its result and the pipe it
leaves, none if it has to sleep. `copies i` says whether the byte `addr + i` can be written. -/
def readOut (killed : Bool) (n : Int) (copies : Nat → Bool) :
    Nat → ReadPc → Pipe T → Option (Int × Pipe T)
  | 0, _, _ => none
  | fuel + 1, pc, d =>
    match piperead killed d n (match pc with | .loop i => copies i | _ => true) pc with
    | some (.assign d pc) => readOut killed n copies fuel pc d
    | some (.wakeup _ pc) => readOut killed n copies fuel pc d
    | some (.leave (.ret r)) => some (r, d)
    | _ => none

variable {fuel : Nat}

theorem readOut_leave {r : Int × Pipe T}
    (h : readOut killed n copies fuel (.leave i) d = some r) : r = ((i : Int), d) := by
  cases fuel with
  | zero => cases h
  | succ fuel => exact (Option.some.inj h).symm

theorem readOut_wake {r : Int × Pipe T}
    (h : readOut killed n copies fuel (.wake i) d = some r) : r = ((i : Int), d) := by
  cases fuel with
  | zero => cases h
  | succ fuel => exact readOut_leave h

/-- The loop copies `c` bytes. Then there is nothing more to copy, or one more byte is taken out of the
pipe and its copy fails. -/
theorem readOut_loop {r : Int} (h : readOut killed n copies fuel (.loop i) d = some (r, d')) :
    ∃ c : Nat, r = i + c ∧ (∀ x < c, copies (i + x) = true) ∧
      ((d'.nread = d.nread + ofNat c ∧ (n ≤ i + c ∨ (d.nwrite - d.nread).toNat ≤ c)) ∨
        (d'.nread = d.nread + ofNat c + 1 ∧ copies (i + c) = false ∧ i + c < n ∧
          c < (d.nwrite - d.nread).toNat)) := by
  induction fuel generalizing i d with
  | zero => cases h
  | succ fuel ih =>
    rw [readOut, piperead] at h
    by_cases hmore : (i : Int) < n ∧ ¬ d.Empty
    · have havail := toNat_sub_succ (w := d.nwrite) (r := d.nread) fun heq => hmore.2 heq.symm
      rw [if_pos hmore] at h
      cases hok : copies i with
      | true =>
        simp only [hok, if_true] at h
        obtain ⟨c, rfl, hcopied, hend⟩ := ih h
        refine ⟨c + 1, by omega, fun x hx => ?_, ?_⟩
        · cases x with
          | zero => exact hok
          | succ x =>
            have := hcopied x (by omega)
            rwa [Nat.add_right_comm] at this
        have hread : (d.fetch true).nread + ofNat c = d.nread + ofNat (c + 1) :=
          (add_ofNat_succ c).symm
        have hcount : (((d.fetch true).nwrite - (d.fetch true).nread).toNat) + 1 =
            (d.nwrite - d.nread).toNat := havail
        rw [hread, Nat.add_right_comm] at hend
        rcases hend with ⟨hend, hstop⟩ | ⟨hend, hfail, hlt, hin⟩
        · exact .inl ⟨hend, by omega⟩
        · exact .inr ⟨hend, hfail, by omega, by omega⟩
      | false =>
        simp only [hok] at h
        cases readOut_wake h
        exact ⟨0, by omega, by simp, .inr ⟨by simp [Pipe.fetch], hok, by omega, by omega⟩⟩
    · rw [if_neg hmore] at h
      cases readOut_leave h
      refine ⟨0, by omega, by simp, .inl ⟨by simp, ?_⟩⟩
      by_cases hlt : (i : Int) < n
      · have hempty : d'.nread = d'.nwrite := not_not.mp fun hne => hmore ⟨hlt, hne⟩
        exact .inr (toNat_sub_eq_zero.mpr hempty.symm).le
      · exact .inl (by omega)

/-- `piperead` takes out of the pipe as many bytes as it returns exactly if no copy that it tries
fails. -/
theorem piperead_consumes_what_it_delivers_iff {fuel k : Nat}
    (h : readOut killed n copies fuel .wait d = some ((k : Int), d')) :
    d'.nread = d.nread + UInt32.ofNat k ↔
      ∀ i : Nat, i < n → i < (d.nwrite - d.nread).toNat → copies i = true := by
  cases fuel with
  | zero => cases h
  | succ fuel =>
    simp only [readOut, piperead] at h
    split_ifs at h
    · simp at h
    obtain ⟨c, hc, hcopied, hend⟩ := readOut_loop h
    obtain rfl : k = c := by omega
    simp only [Nat.zero_add] at hcopied hend
    rcases hend with ⟨hend, hstop⟩ | ⟨hend, hfail, hlt, hin⟩
    · exact ⟨fun _ i hi hin => hcopied i (by omega), fun _ => hend⟩
    rw [hend]
    constructor
    · intro heq
      grind
    · intro hall
      rw [hall k (by omega) hin] at hfail
      cases hfail

def oneByte : Pipe Bool := ⟨fun _ => 7, 0, 1, true, true, [((true, 0), 7)], []⟩

theorem piperead_consumes_what_it_delivers_one_byte :
    ∃ d', readOut false 1 (fun _ => true) 5 .wait oneByte = some (1, d') ∧ d'.nread = 1 := by
  have hcall : readOut false 1 (fun _ => true) 5 .wait oneByte = some (1, oneByte.fetch true) := rfl
  exact ⟨_, hcall, (piperead_consumes_what_it_delivers_iff hcall).mpr fun _ _ _ => rfl⟩

/-- The address is not mapped: the call returns 0 and the byte is gone. -/
theorem piperead_loses_byte : ∃ d', readOut false 1 (fun _ => false) 5 .wait oneByte = some (0, d') ∧
    oneByte.queue = [7] ∧ d'.nread = 1 ∧ d'.queue = [] ∧ d'.returned = [] :=
  ⟨oneByte.fetch false, rfl, by decide, rfl, by decide, rfl⟩

end Delivery

end Xv6.Ipc
