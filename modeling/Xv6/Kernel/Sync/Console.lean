import Xv6.Framework.Monitor
import Xv6.Framework.RingBuffer

namespace Xv6.Console

open Monitor Monitor.Client RingBuffer Transition List

def INPUT_BUF_SIZE : Nat := 128

instance input_buf_size_neZero : NeZero INPUT_BUF_SIZE := ⟨by decide⟩

def C (x : Char) : UInt8 := UInt8.ofNat (x.toNat - '@'.toNat)

def newline : UInt8 := 10

def carriageReturn : UInt8 := 13

def delete : UInt8 := 0x7f

/-- The line discipline for whom it serves: the characters of the committed lines, and the line that
is being edited. -/
structure Editor where
  committed : List UInt8
  line : List UInt8

/-- The buffer holds what is committed and not yet taken by a reader, and the line. -/
def Editor.unread (ed : Editor) (taken : Nat) : Nat := ed.committed.length + ed.line.length - taken

/-- A character arrives when readers have taken `taken` characters. -/
def Editor.type (ed : Editor) (taken : Nat) (c : UInt8) : Editor :=
  if c = C 'P' then ed
  else if c = C 'U' then { ed with line := [] }
  else if c = C 'H' ∨ c = delete then { ed with line := ed.line.dropLast }
  else if c = 0 ∨ INPUT_BUF_SIZE ≤ ed.unread taken then ed
  else
    let c := if c = carriageReturn then newline else c
    if c = newline ∨ c = C 'D' ∨ ed.unread taken + 1 = INPUT_BUF_SIZE then
      ⟨ed.committed ++ ed.line ++ [c], []⟩
    else { ed with line := ed.line ++ [c] }

/-- `cons` without its lock, and as history the characters taken by readers, with the call of
`consoleread` each went to, and the editor that saw the same input. -/
structure Cons (T : Type) where
  buf : Fin INPUT_BUF_SIZE → UInt8
  r : UInt32
  w : UInt32
  e : UInt32
  taken : List ((T × Nat) × UInt8)
  editor : Editor

variable {T : Type}

namespace Cons

def new : Cons T := ⟨fun _ => 0, 0, 0, 0, [], ⟨[], []⟩⟩

/-- `while(cons.e != cons.w && cons.buf[(cons.e-1) % INPUT_BUF_SIZE] != '\n') cons.e--`. -/
def killLine (d : Cons T) : Cons T :=
  if _h : d.e ≠ d.w ∧ d.buf (place INPUT_BUF_SIZE (d.e - 1)) ≠ newline then
    killLine { d with e := d.e - 1 }
  else d
termination_by (d.e - d.w).toNat
decreasing_by
  have hstep := toNat_sub_one_add _h.1
  omega

/-- `cons.buf[cons.e++ % INPUT_BUF_SIZE] = c`. -/
def store (d : Cons T) (c : UInt8) : Cons T :=
  { d with buf := Function.update d.buf (place INPUT_BUF_SIZE d.e) c, e := d.e + 1 }

/-- What `consoleintr` does with the lock held, and whether it calls `wakeup`. -/
def intr (d : Cons T) (c : UInt8) : Cons T × Bool :=
  if c = C 'P' then (d, false)
  else if c = C 'U' then (d.killLine, false)
  else if c = C 'H' ∨ c = delete then
    if d.e ≠ d.w then ({ d with e := d.e - 1 }, false) else (d, false)
  else if c ≠ 0 ∧ (d.e - d.r).toNat < INPUT_BUF_SIZE then
    let c := if c = carriageReturn then newline else c
    let d := d.store c
    if c = newline ∨ c = C 'D' ∨ (d.e - d.r).toNat = INPUT_BUF_SIZE then
      ({ d with w := d.e }, true)
    else (d, false)
  else (d, false)

def consoleintr (d : Cons T) (c : UInt8) : Cons T :=
  { (d.intr c).1 with editor := d.editor.type d.taken.length c }

/-- The character `cons.buf[cons.r % INPUT_BUF_SIZE]`. -/
def first (d : Cons T) : UInt8 := d.buf (place INPUT_BUF_SIZE d.r)

/-- `cons.r++` by the call `id`. -/
def fetch (d : Cons T) (id : T × Nat) : Cons T :=
  { d with r := d.r + 1, taken := d.taken ++ [(id, d.first)] }

/-- `cons.r--`. -/
def putBack (d : Cons T) : Cons T := { d with r := d.r - 1, taken := d.taken.dropLast }

def ready (d : Cons T) : List UInt8 := contents d.buf d.r d.w

def pending (d : Cons T) : List UInt8 := contents d.buf d.w d.e

end Cons

/-- The arguments of `consoleread`: the number of bytes asked for; `id` says which call of which
thread it is. -/
structure Read (T : Type) where
  id : T × Nat
  target : Int

/-- Where a thread stands in `consoleread`, with what is left of `n` and the bytes it has copied to
the user. -/
inductive ReadPc
  | enter
  | loop (n : Int) (got : List UInt8)
  | fetched (n : Int) (got : List UInt8) (c : UInt8)
  | leave (n : Int) (got : List UInt8)
  | ret (r : Int) (got : List UInt8)
  deriving DecidableEq

inductive IntrPc
  | enter
  | body
  | wake
  | leave
  | ret
  deriving DecidableEq

inductive Pc (T : Type)
  | idle
  | intr (c : UInt8) (pc : IntrPc)
  | read (call : Read T) (pc : ReadPc)

/-- Where a thread stands, and how many calls of `consoleread` it has made. -/
structure Place (T : Type) where
  calls : Nat
  pc : Pc T

/-- A call, or in a call whether the next copy to user memory succeeds. -/
inductive Input
  | intr (c : UInt8)
  | read (n : Int)
  | go (ok : Bool)

def CopyOk : Input → Prop
  | .go ok => ok = true
  | _ => True

instance : DecidablePred CopyOk
  | .go ok => inferInstanceAs (Decidable (ok = true))
  | .intr _ => inferInstanceAs (Decidable True)
  | .read _ => inferInstanceAs (Decidable True)

/-- One step of `consoleread`; none once it has returned. The channel is `&cons.r`. -/
def consoleread (killed : Bool) (d : Cons T) (call : Read T) (ok : Bool) :
    ReadPc → Option (Act (Cons T) ReadPc Unit)
  | .enter => some (.enter (.loop call.target []))
  | .loop n got =>
      if 0 < n then
        if d.r = d.w then
          if killed = true then some (.leave (.ret (-1) got)) else some (.sleep () (.loop n got))
        else some (.assign (d.fetch call.id) (.fetched n got d.first))
      else some (.leave (.ret (call.target - n) got))
  | .fetched n got c =>
      if c = C 'D' then some (.assign (if n < call.target then d.putBack else d) (.leave n got))
      else if ok then
        some (.assign d
          (if c = newline then .leave (n - 1) (got ++ [c]) else .loop (n - 1) (got ++ [c])))
      else some (.assign d (.leave n got))
  | .leave n got => some (.leave (.ret (call.target - n) got))
  | .ret _ _ => none

def consoleintr (d : Cons T) (c : UInt8) : IntrPc → Option (Act (Cons T) IntrPc Unit)
  | .enter => some (.enter .body)
  | .body => some (.assign (d.consoleintr c) (if (d.intr c).2 then .wake else .leave))
  | .wake => some (.wakeup () .leave)
  | .leave => some (.leave .ret)
  | .ret => none

def Pc.returned : Pc T → Bool
  | .idle => true
  | .intr _ .ret => true
  | .read _ (.ret _ _) => true
  | _ => false

/-- What the last call of `consoleread` returned, and the bytes it delivered. -/
def Pc.result : Pc T → Option (Int × List UInt8)
  | .read _ (.ret r got) => some (r, got)
  | _ => none

/-- A thread that has returned makes a call or handles an interrupt; otherwise it goes on. -/
def next (t : T) (killed : Bool) (d : Cons T) (l : Place T) :
    Input → Option (Act (Cons T) (Place T) Unit)
  | .intr c => if l.pc.returned then some (.pass ⟨l.calls, .intr c .enter⟩) else none
  | .read n =>
      if l.pc.returned then some (.pass ⟨l.calls + 1, .read ⟨(t, l.calls), n⟩ .enter⟩) else none
  | .go ok =>
      match l.pc with
      | .idle => none
      | .intr c pc => (consoleintr d c pc).map (.map fun pc => ⟨l.calls, .intr c pc⟩)
      | .read call pc =>
          (consoleread killed d call ok pc).map (.map fun pc => ⟨l.calls, .read call pc⟩)

/-- The console and the threads that use it; a reader waits until there is something to read. -/
def client (T : Type) : Client T (Cons T) (Place T) Unit Input where
  next := next
  device _ _ := none
  cond _ _ d := d.r ≠ d.w

abbrev Sys (T : Type) : Type := Monitor.State T (Cons T) (Place T) Unit

def Sys.init (T : Type) : Sys T := State.init .new ⟨0, .idle⟩

/-- The steps of a thread one by one. -/
inductive Next (t : T) (b : Bool) (d : Cons T) (calls : Nat) :
    Pc T → Input → Act (Cons T) (Place T) Unit → Prop
  | callIntr {pc : Pc T} {c : UInt8} :
      Next t b d calls pc (.intr c) (.pass ⟨calls, .intr c .enter⟩)
  | callRead {pc : Pc T} {n : Int} :
      Next t b d calls pc (.read n) (.pass ⟨calls + 1, .read ⟨(t, calls), n⟩ .enter⟩)
  | intr {c : UInt8} {pc : IntrPc} {ok : Bool} {a : Act (Cons T) IntrPc Unit}
      (step : consoleintr d c pc = some a) :
      Next t b d calls (.intr c pc) (.go ok) (a.map fun pc => ⟨calls, .intr c pc⟩)
  | read {call : Read T} {pc : ReadPc} {ok : Bool} {a : Act (Cons T) ReadPc Unit}
      (step : consoleread b d call ok pc = some a) :
      Next t b d calls (.read call pc) (.go ok) (a.map fun pc => ⟨calls, .read call pc⟩)

variable {i : Input}

theorem next_cases {t : T} {b : Bool} {d : Cons T} {calls : Nat} {pc : Pc T}
    {a : Act (Cons T) (Place T) Unit} (h : next t b d ⟨calls, pc⟩ i = some a) :
    Next t b d calls pc i a := by
  cases i with
  | intr c =>
    rw [next] at h
    split_ifs at h
    cases h
    exact .callIntr
  | read n =>
    rw [next] at h
    split_ifs at h
    cases h
    exact .callRead
  | go ok =>
    cases pc with
    | idle => cases h
    | intr c pc =>
      obtain ⟨a', ha', rfl⟩ := Option.map_eq_some_iff.mp h
      exact .intr ha'
    | read call pc =>
      obtain ⟨a', ha', rfl⟩ := Option.map_eq_some_iff.mp h
      exact .read ha'

section Discipline

/-- What is committed is not erased. -/
theorem Editor.type_committed (ed : Editor) (taken : Nat) (c : UInt8) :
    ed.committed <+: (ed.type taken c).committed := by
  unfold type
  dsimp only
  split_ifs
  all_goals first
    | exact prefix_rfl
    | exact ⟨_, (append_assoc ..).symm⟩

namespace Cons

/-- The buffer holds what the editor says. -/
structure Edited (d : Cons T) : Prop where
  le : (d.w - d.r).toNat ≤ (d.e - d.r).toNat
  bound : (d.e - d.r).toNat ≤ INPUT_BUF_SIZE
  full : (d.e - d.r).toNat = INPUT_BUF_SIZE → d.w = d.e
  committed : d.taken.map Prod.snd ++ d.ready = d.editor.committed
  line : d.pending = d.editor.line
  unended : newline ∉ d.pending

variable {d : Cons T} {c : UInt8}

theorem Edited.unread (h : d.Edited) : d.editor.unread d.taken.length = (d.e - d.r).toNat := by
  have hcommitted := congrArg length h.committed
  have hline := congrArg length h.line
  have hsum := toNat_sub_add_sub h.le
  rw [length_append, length_map, ready, length_contents] at hcommitted
  rw [pending, length_contents] at hline
  rw [Editor.unread]
  omega

/-- A line that has not ended is killed as a whole. -/
theorem killLine_eq (h : newline ∉ d.pending) : d.killLine = { d with e := d.w } := by
  induction d using killLine.induct with
  | case1 d hmore ih =>
    have hsplit : d.pending = contents d.buf d.w (d.e - 1) ++ [_] := contents_concat hmore.1
    rw [killLine, dif_pos hmore]
    apply ih
    intro hmem
    apply h
    rw [hsplit]
    exact mem_append_left _ hmem
  | case2 d hstop =>
    rw [killLine, dif_neg hstop]
    by_cases he : d.e = d.w
    · exact congrArg (fun e => { d with e := e }) he
    have hsplit : d.pending = _ ++ [d.buf (place INPUT_BUF_SIZE (d.e - 1))] := contents_concat he
    have hend : d.buf (place INPUT_BUF_SIZE (d.e - 1)) = newline := by
      by_contra hne
      exact hstop ⟨he, hne⟩
    rw [hsplit, hend] at h
    simp at h

theorem Edited.kill (h : d.Edited) :
    { d with e := d.w, editor := { d.editor with line := [] } }.Edited where
  le := le_rfl
  bound := h.le.trans h.bound
  full _ := rfl
  committed := h.committed
  line := contents_self
  unended := by
    rw [pending, contents_self]
    exact not_mem_nil

theorem Edited.erase (h : d.Edited) (he : d.e ≠ d.w) :
    { d with e := d.e - 1, editor := { d.editor with line := d.editor.line.dropLast } }.Edited := by
  have hsplit : d.pending = contents d.buf d.w (d.e - 1) ++ [_] := contents_concat he
  have hsum := toNat_sub_add_sub h.le
  have hpos : (d.e - d.w).toNat ≠ 0 := fun hzero => he (toNat_sub_eq_zero.mp hzero)
  have her : d.e ≠ d.r := fun heq => by
    have hzero := toNat_sub_eq_zero.mpr heq
    omega
  have hpred := toNat_sub_one_add her
  have hbound := h.bound
  have hline := h.line
  rw [hsplit] at hline
  constructor
  · change (d.w - d.r).toNat ≤ (d.e - 1 - d.r).toNat
    omega
  · change (d.e - 1 - d.r).toNat ≤ INPUT_BUF_SIZE
    omega
  · change (d.e - 1 - d.r).toNat = INPUT_BUF_SIZE → _
    omega
  · exact h.committed
  · change contents d.buf d.w (d.e - 1) = d.editor.line.dropLast
    rw [← hline, dropLast_concat]
  · intro hmem
    apply h.unended
    rw [hsplit]
    exact mem_append_left _ hmem

section

variable (h : d.Edited) (hroom : (d.e - d.r).toNat < INPUT_BUF_SIZE)
include h hroom

/-- What a character stored at a buffer that is not full changes. -/
theorem Edited.store_parts (c : UInt8) :
    (d.e + 1 - d.r).toNat = (d.e - d.r).toNat + 1 ∧ (d.store c).ready = d.ready ∧
      (d.store c).pending = d.pending ++ [c] := by
  have hdvd : INPUT_BUF_SIZE ∣ 2 ^ 32 := by decide
  have hsmall : INPUT_BUF_SIZE < 2 ^ 32 - 1 := by decide
  have hsum := toNat_sub_add_sub h.le
  refine ⟨toNat_sub_add_one (hroom.trans hsmall), contents_update hdvd h.le hroom c, ?_⟩
  have hlt : (d.e - d.w).toNat < INPUT_BUF_SIZE := by omega
  exact contents_push hdvd hlt (by omega) c

theorem Edited.store (hnew : c ≠ newline) (hfull : (d.e + 1 - d.r).toNat ≠ INPUT_BUF_SIZE) :
    { d.store c with editor := { d.editor with line := d.editor.line ++ [c] } }.Edited := by
  obtain ⟨hlen, hready, hpending⟩ := h.store_parts hroom c
  have hle := h.le
  constructor
  · change (d.w - d.r).toNat ≤ (d.e + 1 - d.r).toNat
    omega
  · change (d.e + 1 - d.r).toNat ≤ INPUT_BUF_SIZE
    omega
  · exact fun hsize => absurd hsize hfull
  · change d.taken.map Prod.snd ++ (d.store c).ready = d.editor.committed
    rw [hready]
    exact h.committed
  · change (d.store c).pending = d.editor.line ++ [c]
    rw [hpending, h.line]
  · change newline ∉ (d.store c).pending
    rw [hpending]
    simp [h.unended, hnew.symm]

theorem Edited.commit (c : UInt8) :
    { d.store c with
      w := d.e + 1
      editor := ⟨d.editor.committed ++ d.editor.line ++ [c], []⟩ }.Edited := by
  obtain ⟨hlen, hready, hpending⟩ := h.store_parts hroom c
  have hle := h.le
  have hall : contents (d.store c).buf d.r (d.e + 1) = d.ready ++ (d.pending ++ [c]) := by
    have hsplit : (d.w - d.r).toNat ≤ (d.e + 1 - d.r).toNat := by omega
    rw [← hready, ← hpending]
    exact contents_append hsplit
  constructor
  · exact le_rfl
  · change (d.e + 1 - d.r).toNat ≤ INPUT_BUF_SIZE
    omega
  · exact fun _ => rfl
  · change d.taken.map Prod.snd ++ contents (d.store c).buf d.r (d.e + 1) = _
    rw [hall, ← append_assoc, ← append_assoc, h.committed, h.line]
  · exact contents_self
  · change newline ∉ contents (d.store c).buf (d.e + 1) (d.e + 1)
    rw [contents_self]
    exact not_mem_nil

end

/-- `consoleintr` does what the editor does. -/
theorem Edited.consoleintr (h : d.Edited) (c : UInt8) : (d.consoleintr c).Edited := by
  unfold Cons.consoleintr Cons.intr Editor.type
  by_cases hP : c = C 'P'
  · rw [if_pos hP, if_pos hP]
    exact h
  rw [if_neg hP, if_neg hP]
  by_cases hU : c = C 'U'
  · rw [if_pos hU, if_pos hU, killLine_eq h.unended]
    exact h.kill
  rw [if_neg hU, if_neg hU]
  by_cases hH : c = C 'H' ∨ c = delete
  · rw [if_pos hH, if_pos hH]
    by_cases he : d.e ≠ d.w
    · rw [if_pos he]
      exact h.erase he
    rw [if_neg he]
    have hempty : d.editor.line = [] := by
      rw [← h.line, pending, contents_eq_nil]
      exact not_not.mp he
    rw [hempty]
    exact ⟨h.le, h.bound, h.full, h.committed, h.line.trans hempty, h.unended⟩
  rw [if_neg hH, if_neg hH]
  by_cases hstore : c ≠ 0 ∧ (d.e - d.r).toNat < INPUT_BUF_SIZE
  · have htype : ¬ (c = 0 ∨ INPUT_BUF_SIZE ≤ d.editor.unread d.taken.length) := by
      rw [h.unread]
      rintro (hc | hfull)
      · exact hstore.1 hc
      · omega
    rw [if_pos hstore, if_neg htype, h.unread]
    obtain ⟨hlen, -, -⟩ := h.store_parts hstore.2 (if c = carriageReturn then newline else c)
    generalize (if c = carriageReturn then newline else c) = c' at hlen ⊢
    change { (if c' = newline ∨ c' = C 'D' ∨ (d.e + 1 - d.r).toNat = INPUT_BUF_SIZE then
      ({ d.store c' with w := d.e + 1 }, true) else (d.store c', false) : Cons T × Bool).1 with
        editor := if c' = newline ∨ c' = C 'D' ∨ (d.e - d.r).toNat + 1 = INPUT_BUF_SIZE then
          ⟨d.editor.committed ++ d.editor.line ++ [c'], []⟩
          else { d.editor with line := d.editor.line ++ [c'] } }.Edited
    rw [hlen]
    by_cases hend : c' = newline ∨ c' = C 'D' ∨ (d.e - d.r).toNat + 1 = INPUT_BUF_SIZE
    · rw [if_pos hend, if_pos hend]
      exact h.commit hstore.2 c'
    · rw [if_neg hend, if_neg hend]
      exact h.store hstore.2 (fun hnew => hend (.inl hnew)) fun hfull =>
        hend (.inr (.inr (hlen ▸ hfull)))
  · have htype : c = 0 ∨ INPUT_BUF_SIZE ≤ d.editor.unread d.taken.length := by
      rw [h.unread]
      by_contra hno
      exact hstore ⟨fun hc => hno (.inl hc), by omega⟩
    rw [if_neg hstore, if_pos htype]
    exact h

theorem Edited.fetch (h : d.Edited) (hr : d.r ≠ d.w) (id : T × Nat) : (d.fetch id).Edited := by
  have hsum := toNat_sub_add_sub h.le
  have hpos : (d.w - d.r).toNat ≠ 0 := fun hzero => hr (toNat_sub_eq_zero.mp hzero).symm
  have her : d.e ≠ d.r := fun heq => by
    have hzero := toNat_sub_eq_zero.mpr heq
    omega
  have hw := toNat_sub_succ hr.symm
  have he := toNat_sub_succ her
  have hbound := h.bound
  constructor
  · change (d.w - (d.r + 1)).toNat ≤ (d.e - (d.r + 1)).toNat
    omega
  · change (d.e - (d.r + 1)).toNat ≤ INPUT_BUF_SIZE
    omega
  · change (d.e - (d.r + 1)).toNat = INPUT_BUF_SIZE → _
    omega
  · change (d.taken ++ [(id, d.first)]).map Prod.snd ++ contents d.buf (d.r + 1) d.w =
      d.editor.committed
    rw [map_append, append_assoc, ← h.committed]
    exact congrArg (d.taken.map Prod.snd ++ ·) (contents_pop hr.symm).symm
  · exact h.line
  · exact h.unended

theorem putBack_fetch (id : T × Nat) : (d.fetch id).putBack = d := by
  have hr : d.r + 1 - 1 = d.r := by grind
  simp [putBack, Cons.fetch, hr]

theorem killLine_taken : d.killLine.taken = d.taken := by
  induction d using killLine.induct with
  | case1 d hmore ih =>
    rw [killLine, dif_pos hmore]
    exact ih
  | case2 d hstop => rw [killLine, dif_neg hstop]

theorem consoleintr_taken : (d.consoleintr c).taken = d.taken := by
  change (d.intr c).1.taken = d.taken
  unfold intr
  dsimp only
  split_ifs
  all_goals first | exact killLine_taken | rfl

end Cons

end Discipline

section Reads

variable [DecidableEq T]

def Cons.takenBy (d : Cons T) (id : T × Nat) : List UInt8 :=
  (d.taken.filter fun b => b.1 = id).map Prod.snd

/-- How a call ends that has copied `got` to the user: it has delivered no ^D and nothing after a
newline, and it has taken what it delivered, or a ^D alone. -/
structure Read.Ended (call : Read T) (got : List UInt8) (d : Cons T) : Prop where
  eof : C 'D' ∉ got
  line : newline ∉ got.dropLast
  taken : d.takenBy call.id = got ∧ (got = [] → call.target ≤ 0) ∨
    d.takenBy call.id = [C 'D'] ∧ got = []

/-- What a call has done so far. -/
def Read.Doing (call : Read T) (d : Cons T) : ReadPc → Prop
  | .enter => d.takenBy call.id = []
  | .loop n got => d.takenBy call.id = got ∧ n = call.target - got.length ∧
      C 'D' ∉ got ∧ newline ∉ got
  | .fetched n got c => d.takenBy call.id = got ++ [c] ∧ n = call.target - got.length ∧
      C 'D' ∉ got ∧ newline ∉ got
  | .leave n got => n = call.target - got.length ∧ call.Ended got d
  | .ret r got => r = -1 ∨ r = got.length ∧ call.Ended got d

/-- What holds of the calls of a thread. -/
structure Stands (t : T) (l : Place T) (d : Cons T) : Prop where
  fresh : ∀ n, l.calls ≤ n → d.takenBy (t, n) = []
  read : ∀ call pc, l.pc = .read call pc → call.id.1 = t ∧ call.id.2 < l.calls ∧ call.Doing d pc

/-- What a reader knows while it holds the lock: where its character came from, and why it stops. -/
def Held (l : Place T) (d : Cons T) : Prop :=
  match l.pc with
  | .read call (.fetched _ _ c) =>
      ∃ d₀ : Cons T, d = d₀.fetch call.id ∧ d₀.Edited ∧ d₀.r ≠ d₀.w ∧ c = d₀.first
  | .read _ (.leave n got) => 0 < n → got ≠ [] →
      got.getLast? = some newline ∨ d.ready.head? = some (C 'D')
  | _ => True

def edited (T : Type) [DecidableEq T] : Assertions T (Cons T) (Place T) where
  inv := Cons.Edited
  rest _ := True
  stands := Stands
  held _ := Held

variable {t u : T} {b : Bool} {d d' : Cons T} {l : Place T} {call : Read T} {calls : Nat}
  {id : T × Nat}

theorem Cons.takenBy_fetch : (d.fetch id).takenBy id = d.takenBy id ++ [d.first] := by
  simp [takenBy, fetch]

theorem Cons.takenBy_fetch_of_ne {id' : T × Nat} (h : id' ≠ id) :
    (d.fetch id).takenBy id' = d.takenBy id' := by
  simp [takenBy, fetch, h.symm]

variable {pc : ReadPc}

theorem Read.Doing.congr (h : call.Doing d pc)
    (htaken : d'.takenBy call.id = d.takenBy call.id) : call.Doing d' pc := by
  have hended : ∀ got, call.Ended got d → call.Ended got d' := fun got hgot =>
    ⟨hgot.eof, hgot.line, htaken.symm ▸ hgot.taken⟩
  cases pc with
  | enter => exact htaken.trans h
  | loop | fetched => exact ⟨htaken.trans h.1, h.2⟩
  | leave n got => exact ⟨h.1, hended got h.2⟩
  | ret r got =>
    rcases h with hkilled | hret
    · exact .inl hkilled
    · exact .inr ⟨hret.1, hended got hret.2⟩

theorem Stands.congr (h : Stands t l d)
    (htaken : ∀ id : T × Nat, id.1 = t → d'.takenBy id = d.takenBy id) : Stands t l d' where
  fresh n hn := (htaken _ rfl).trans (h.fresh n hn)
  read call pc hpc := have hread := h.read call pc hpc
    ⟨hread.1, hread.2.1, hread.2.2.congr (htaken _ hread.1)⟩

theorem takenBy_fetch_other {id' : T × Nat} (hid : id.1 = t) (hid' : id'.1 = u) (hut : u ≠ t) :
    (d.fetch id).takenBy id' = d.takenBy id' :=
  Cons.takenBy_fetch_of_ne fun heq => hut (hid'.symm.trans ((congrArg Prod.fst heq).trans hid))

variable {pc' : ReadPc}

theorem Stands.goto (h : Stands t ⟨calls, .read call pc⟩ d)
    (hdoing : call.Doing d pc') : Stands t ⟨calls, .read call pc'⟩ d where
  fresh := h.fresh
  read call' pc'' hpc := by
    cases hpc
    have hread := h.read call pc rfl
    exact ⟨hread.1, hread.2.1, hdoing⟩

variable {c : UInt8}

theorem Stands.intr (h : Stands t l d) {pc : IntrPc} : Stands t ⟨l.calls, .intr c pc⟩ d where
  fresh := h.fresh
  read call pc' heq := by cases heq

omit [DecidableEq T] in
theorem ne_of_fresh {m : Nat} (hid : id.2 < calls) (hm : calls ≤ m) : (t, m) ≠ id :=
  fun heq => absurd (congrArg Prod.snd heq) (Nat.ne_of_gt (Nat.lt_of_lt_of_le hid hm))

variable {got : List UInt8}

theorem Stands.fetch {n : Int} (h : Stands t ⟨calls, .read call (.loop n got)⟩ d) :
    Stands t ⟨calls, .read call (.fetched n got d.first)⟩ (d.fetch call.id) := by
  obtain ⟨hid, hlt, htaken, hn, hclean⟩ := h.read call _ rfl
  constructor
  · intro m hm
    rw [Cons.takenBy_fetch_of_ne (ne_of_fresh hlt hm)]
    exact h.fresh m hm
  · intro call' pc hpc
    cases hpc
    refine ⟨hid, hlt, ?_, hn, hclean⟩
    rw [Cons.takenBy_fetch, htaken]

theorem Stands.putBack (h : Stands t ⟨calls, .read call pc⟩ (d.fetch call.id))
    (hdoing : call.Doing d pc') : Stands t ⟨calls, .read call pc'⟩ d := by
  obtain ⟨hid, hlt, -⟩ := h.read call _ rfl
  constructor
  · intro m hm
    rw [← Cons.takenBy_fetch_of_ne (ne_of_fresh hlt hm)]
    exact h.fresh m hm
  · intro call' pc'' hpc
    cases hpc
    exact ⟨hid, hlt, hdoing⟩

theorem Read.Doing.deliver {n : Int} (h : call.Doing d (.fetched n got c)) (hc : c ≠ C 'D') :
    call.Doing d (if c = newline then .leave (n - 1) (got ++ [c]) else .loop (n - 1) (got ++ [c])) := by
  obtain ⟨htaken, hn, heof, hline⟩ := h
  have hlen : n - 1 = call.target - (got ++ [c]).length := by
    rw [length_append, length_singleton]
    omega
  have heof' : C 'D' ∉ got ++ [c] := by simp [heof, hc.symm]
  split_ifs with hnew
  · refine ⟨hlen, heof', ?_, .inl ⟨htaken, fun hnil => absurd hnil (by simp)⟩⟩
    rwa [dropLast_concat]
  · exact ⟨htaken, hlen, heof', by simp [hline, Ne.symm hnew]⟩

theorem consoleread_edited {a : Act (Cons T) ReadPc Unit} (hinv : d.Edited)
    (hst : Stands t ⟨calls, .read call pc⟩ d) (hheld : ActInside a → Held ⟨calls, .read call pc⟩ d)
    (h : consoleread b d call true pc = some a) :
    (edited T).After t d (a.map fun pc => ⟨calls, .read call pc⟩) := by
  obtain ⟨hid, -, hdoing⟩ := hst.read call pc rfl
  cases pc with
  | enter =>
    cases h
    exact fun _ => ⟨hst.goto ⟨hdoing, by simp, by simp, by simp⟩, trivial⟩
  | loop n got =>
    obtain ⟨htaken, hn, heof, hline⟩ := hdoing
    rw [consoleread] at h
    split_ifs at h with hpos hempty hkilled
    · cases h
      exact ⟨trivial, hst.goto (.inl rfl)⟩
    · cases h
      exact ⟨trivial, hst.goto ⟨htaken, hn, heof, hline⟩, fun _ _ _ _ => trivial⟩
    · cases h
      refine ⟨hinv.fetch hempty _, hst.fetch, ⟨d, rfl, hinv, hempty, rfl⟩, fun u m hut hu => ?_⟩
      exact hu.congr fun id hu => takenBy_fetch_other hid hu hut
    cases h
    refine ⟨trivial, hst.goto (.inr ⟨by omega, heof,
      fun hmem => hline (mem_of_mem_dropLast hmem), .inl ⟨htaken, fun hnil => ?_⟩⟩)⟩
    subst hnil
    simp at hn
    omega
  | fetched n got c =>
    obtain ⟨d0, rfl, hinv0, hready, rfl⟩ := hheld (by
      rw [consoleread] at h
      split_ifs at h <;> cases h <;> trivial)
    obtain ⟨htaken, hn, heof, hline⟩ := hdoing
    rw [consoleread] at h
    by_cases hD : d0.first = C 'D'
    · rw [if_pos hD] at h
      cases h
      have hback : d0.takenBy call.id = got := by
        rw [Cons.takenBy_fetch] at htaken
        exact append_cancel_right htaken
      have hended : newline ∉ got.dropLast := fun hmem => hline (mem_of_mem_dropLast hmem)
      by_cases hsome : n < call.target
      · have hgot : got ≠ [] := by
          rintro rfl
          simp at hn
          omega
        rw [if_pos hsome, Cons.putBack_fetch]
        refine ⟨hinv0, ?_, fun _ _ => .inr ?_, fun u m hut hu => ?_⟩
        · exact hst.putBack ⟨hn, heof, hended, .inl ⟨hback, fun hnil => absurd hnil hgot⟩⟩
        · change (contents d0.buf d0.r d0.w).head? = _
          rw [contents_pop hready.symm]
          exact congrArg some hD
        · exact hu.congr fun id hu => (takenBy_fetch_other hid hu hut).symm
      · have hgot : got = [] := by
          rw [← length_eq_zero_iff]
          omega
        subst hgot
        rw [if_neg hsome]
        refine ⟨hinv, hst.goto ⟨hn, heof, hended, .inr ⟨?_, rfl⟩⟩, fun _ hne => absurd rfl hne,
          fun _ _ _ => id⟩
        rw [htaken, hD]
        rfl
    · rw [if_neg hD, if_pos rfl] at h
      cases h
      have hdeliver := Read.Doing.deliver ⟨htaken, hn, heof, hline⟩ hD
      refine ⟨hinv, hst.goto hdeliver, ?_, fun _ _ _ => id⟩
      split_ifs with hnew
      · exact fun _ _ => .inl (by simp [hnew])
      · trivial
  | leave n got =>
    cases h
    obtain ⟨hn, hended⟩ := hdoing
    exact ⟨trivial, hst.goto (.inr ⟨by omega, hended⟩)⟩
  | ret r got => cases h

theorem consoleintr_edited {pc : IntrPc} {a : Act (Cons T) IntrPc Unit}
    (hinv : d.Edited) (hst : Stands t ⟨calls, .intr c pc⟩ d) (h : consoleintr d c pc = some a) :
    (edited T).After t d (a.map fun pc => ⟨calls, .intr c pc⟩) := by
  have hintr : ∀ pc, Stands t ⟨calls, .intr c pc⟩ d := fun pc => hst.intr
  have htaken : ∀ id, (d.consoleintr c).takenBy id = d.takenBy id := fun id => by
    rw [Cons.takenBy, Cons.consoleintr_taken, Cons.takenBy]
  cases pc with
  | enter =>
    cases h
    exact fun _ => ⟨hintr _, trivial⟩
  | body =>
    cases h
    exact ⟨hinv.consoleintr c, (hintr _).congr fun id _ => htaken id, trivial,
      fun u m _ hu => hu.congr fun id _ => htaken id⟩
  | wake =>
    cases h
    exact ⟨hintr _, trivial⟩
  | leave =>
    cases h
    exact ⟨trivial, hintr _⟩
  | ret => cases h

/-- The outline of the line discipline, for copies that succeed. -/
def editedOutline (T : Type) [DecidableEq T] : (client T).Outline CopyOk where
  toAssertions := edited T
  next := by
    intro t b d l i a hok hinv hst hheld h
    obtain ⟨calls, pc⟩ := l
    cases next_cases h with
    | callIntr => exact hst.intr
    | callRead =>
      refine ⟨fun n hn => hst.fresh n (Nat.le_of_succ_le hn), fun call pc hpc => ?_⟩
      cases hpc
      exact ⟨rfl, Nat.lt_succ_self _, hst.fresh _ le_rfl⟩
    | intr step => exact consoleintr_edited hinv hst step
    | @read call pc ok a step =>
      obtain rfl : ok = true := hok
      exact consoleread_edited hinv hst (fun hin => hheld (actInside_map.mpr hin)) step
  device := by
    intro d i d' _ _ h
    cases h

section

omit [DecidableEq T]

theorem consoleread_editor {ok : Bool}
    (h : consoleread b d call ok pc = some (.assign d' pc')) : d'.editor = d.editor := by
  cases pc with
  | enter | leave | ret => cases h
  | loop n got =>
    rw [consoleread] at h
    split_ifs at h <;> cases h
    rfl
  | fetched n got c =>
    rw [consoleread] at h
    split_ifs at h <;> cases h <;> rfl

theorem next_committed {l' : Place T} (h : next t b d l i = some (.assign d' l')) :
    d.editor.committed <+: d'.editor.committed := by
  obtain ⟨calls, pc⟩ := l
  generalize ha : Act.assign d' l' = a at h
  cases next_cases h with
  | callIntr | callRead => cases ha
  | @intr c pc ok a step =>
    cases pc with
    | enter | wake | leave =>
      cases step
      cases ha
    | body =>
      cases step
      cases ha
      exact d.editor.type_committed d.taken.length c
    | ret => cases step
  | @read call pc ok a step =>
    cases a with
    | assign d'' pc' =>
      cases ha
      rw [consoleread_editor step]
    | pass | enter | wakeup | sleep | leave => cases ha

/-- A read returns when it has all it asked for, when it has stopped, or killed. -/
theorem next_returns {a : Act (Cons T) (Place T) Unit} {r : Int}
    (h : next t b d l i = some a) (ha : a.place.pc = .read call (.ret r got)) :
    ActInside a ∧ (r = -1 ∨ call.target ≤ r ∨
      ∃ n, l.pc = .read call (.leave n got) ∧ r = call.target - n) := by
  obtain ⟨calls, pc⟩ := l
  cases next_cases h with
  | callIntr | callRead => cases ha
  | intr step =>
    rw [Act.place_map] at ha
    cases ha
  | @read call' pc ok a step =>
    rw [Act.place_map] at ha
    injection ha with hcall hret
    subst hcall
    rw [actInside_map]
    cases pc with
    | enter =>
      cases step
      cases hret
    | loop n got' =>
      rw [consoleread] at step
      split_ifs at step with hpos hempty hkilled
      · cases step
        cases hret
        exact ⟨trivial, .inl rfl⟩
      · cases step
        cases hret
      · cases step
        cases hret
      · cases step
        injection hret with hr
        exact ⟨trivial, .inr (.inl (by omega))⟩
    | fetched n got' c =>
      rw [consoleread] at step
      split_ifs at step <;> cases step <;> cases hret
    | leave n got' =>
      cases step
      injection hret with hr hgot
      subst hgot
      exact ⟨trivial, .inr (.inr ⟨n, rfl, hr.symm⟩)⟩
    | ret r' got' => cases step

end

/-- The line discipline. The counters are in order, at most `INPUT_BUF_SIZE` apart, and a full buffer
is all committed; what readers took and what is there to read is what the editor has committed,
which is never erased. What a read returns is the number of bytes it delivered; among them is no ^D
and nothing after a newline, and there are none just if a ^D came first; a shorter read ends at a
newline or before a ^D. -/
theorem console_line_discipline {ls : List (Label T Input)} {s : Sys T}
    (h : Run (fun s l s' => (client T).Step s l s' ∧ LabelOk CopyOk l) (Sys.init T) ls s) :
    ((s.data.w - s.data.r).toNat ≤ (s.data.e - s.data.r).toNat ∧
        (s.data.e - s.data.r).toNat ≤ INPUT_BUF_SIZE ∧
        ((s.data.e - s.data.r).toNat = INPUT_BUF_SIZE → s.data.w = s.data.e)) ∧
      (s.data.taken.map Prod.snd ++ s.data.ready = s.data.editor.committed ∧
        s.data.pending = s.data.editor.line) ∧
      (∀ t call r got, (s.loc t).pc = .read call (.ret r got) → 0 ≤ r →
        r = got.length ∧ C 'D' ∉ got ∧ newline ∉ got.dropLast ∧
          (s.data.takenBy call.id = got ∨ s.data.takenBy call.id = [C 'D'] ∧ got = []) ∧
          (0 < call.target → (r = 0 ↔ s.data.takenBy call.id = [C 'D']))) ∧
      ∀ lab s', (client T).Step s lab s' →
        s.data.editor.committed <+: s'.data.editor.committed ∧
          ∀ t call r got, (s.loc t).pc ≠ .read call (.ret r got) →
            (s'.loc t).pc = .read call (.ret r got) → 0 < r → r < call.target →
              got.getLast? = some newline ∨ s.data.ready.head? = some (C 'D') := by
  have hzero : (0 - 0 : UInt32).toNat ≤ INPUT_BUF_SIZE := by decide
  have hnew : (Cons.new : Cons T).Edited := by
    refine ⟨le_rfl, hzero, fun _ => rfl, contents_self, contents_self, ?_⟩
    rw [Cons.pending, Cons.new, contents_self]
    exact not_mem_nil
  have hidle : ∀ t, Stands t ⟨0, .idle⟩ (Cons.new : Cons T) := fun t =>
    ⟨fun _ _ => rfl, fun call pc hpc => by cases hpc⟩
  have hholds := (editedOutline T).run h hnew trivial hidle
  have hinv : s.data.Edited := hholds.inv
  refine ⟨⟨hinv.le, hinv.bound, hinv.full⟩, ⟨hinv.committed, hinv.line⟩, ?_, ?_⟩
  · intro t call r got hpc hr
    obtain ⟨-, -, hdoing⟩ := (hholds.stands t).read call _ hpc
    obtain ⟨hlen, hended⟩ := hdoing.resolve_left (by omega)
    refine ⟨hlen, hended.eof, hended.line, hended.taken.imp_left And.left, fun htarget => ?_⟩
    constructor
    · intro hzero
      have hnil : got = [] := eq_nil_of_length_eq_zero (by omega)
      rcases hended.taken with ⟨-, hnone⟩ | ⟨hD, -⟩
      · have := hnone hnil
        omega
      · exact hD
    intro hD
    rcases hended.taken with ⟨hgot, -⟩ | ⟨-, hnil⟩
    · have heof := hended.eof
      rw [← hgot, hD] at heof
      simp at heof
    · rw [hlen, hnil]
      rfl
  · intro lab s' hstep
    constructor
    · rcases hstep.move.data_cases with hsame | ⟨t, i, m, hnext⟩ | ⟨i, hdevice⟩
      · rw [hsame]
      · exact next_committed hnext
      · cases hdevice
    intro t call r got hbefore hafter hpos hshort
    have hne : s'.loc t ≠ s.loc t := fun heq => hbefore (heq ▸ hafter)
    obtain ⟨i, a, rfl, hnext, hin, hloc⟩ := hstep.move.loc_ne hne
    obtain ⟨hact, hwhy⟩ := next_returns hnext (hloc ▸ hafter)
    rcases hwhy with hkilled | hall | ⟨n, hpc, hr⟩
    · omega
    · omega
    have hheld : Held (s.loc t) s.data := hholds.held t (hin hact)
    obtain ⟨-, -, hn, -⟩ := (hholds.stands t).read call _ hpc
    rw [Held, hpc] at hheld
    refine hheld (by omega) fun hnil => ?_
    rw [hnil] at hn
    simp at hn
    omega

/-- A read for five bytes waits for a `b` and a ^D; it takes the `b` and leaves the ^D. -/
theorem console_line_discipline_eof :
    ∃ s : Sys Bool, (s.loc false).pc.result = some (1, [98]) ∧ s.data.editor.committed = [98, 4] ∧
      s.data.taken.map Prod.snd ++ s.data.ready = s.data.editor.committed := by
  have hex : (exec (guarded (client Bool).step fun _ l => LabelOk CopyOk l) (Sys.init Bool)
      [.run true (.intr 98), .run true (.go true), .run true (.go true), .run true (.go true),
        .run false (.read 5), .run false (.go true), .run false (.go true),
        .run true (.intr 4), .run true (.go true), .run true (.go true), .run true (.go true),
        .run true (.go true), .run false (.go true), .run false (.go true), .run false (.go true),
        .run false (.go true), .run false (.go true), .run false (.go true)]).map
      (fun s => ((s.loc false).pc.result, s.data.editor.committed)) =
        some (some (1, [98]), [98, 4]) := by
    decide +kernel
  obtain ⟨s, hs, hval⟩ := Option.map_eq_some_iff.mp hex
  obtain ⟨-, ⟨hcommitted, -⟩, -⟩ := console_line_discipline (run_of_exec_guarded hs)
  exact ⟨s, congrArg Prod.fst hval, congrArg Prod.snd hval, hcommitted⟩

end Reads

end Xv6.Console
