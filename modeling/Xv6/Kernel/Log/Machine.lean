import Xv6.Framework.Counting
import Xv6.Framework.Transition
import Xv6.Kernel.Param

namespace Xv6.Log

open Transition Function

/-- The panics of `begin_op`, `log_write` and `end_op`. -/
inductive Panic
  | tooBig
  | outsideTrans
  | logCommitting
  deriving DecidableEq, Repr

def Panic.msg : Panic → String
  | .tooBig => "too big a transaction"
  | .outsideTrans => "log_write outside of trans"
  | .logCommitting => "log.committing"

/-- Where `commit` stands; `tail` counts the loop iterations done. -/
inductive Stage
  | start
  | writeLog (tail : Nat)
  | writeHead
  | install (tail : Nat)
  | clear
  | eraseHead
  | done
  deriving DecidableEq, Repr

/-- Where a process stands in the log layer. An operation carries the blocks it has passed to
`log_write` so far. -/
inductive Pc
  | outside
  | entering
  | asleep
  | inOp (wrote : List Nat)
  | commit (stage : Stage)
  deriving DecidableEq, Repr

/-- `struct log` without its disk location, the processes, and as history the operations that
have ended since the last commit. -/
structure LogState (P : Type) where
  outstanding : Int
  committing : Bool
  lh : List Nat
  pc : P → Pc
  ops : List (List Nat)

/-- The state `recover_from_log` leaves. -/
def LogState.init (P : Type) : LogState P := ⟨0, false, [], fun _ => .outside, []⟩

inductive Label (P : Type)
  | callBegin (p : P)
  | beginOp (p : P)
  | wake (p : P)
  | logWrite (p : P) (b : Nat)
  | endOp (p : P)
  | commitStep (p : P)
  | endCommit (p : P)

def wakeup {P : Type} (pc : P → Pc) : P → Pc :=
  fun q => if pc q = .asleep then .entering else pc q

def NoSpace (n : Nat) (outstanding : Int) : Prop :=
  (LOGSIZE : Int) < n + (outstanding + 1) * MAXOPBLOCKS

instance (n : Nat) (o : Int) : Decidable (NoSpace n o) := inferInstanceAs (Decidable (_ < _))

/-- `log_write`'s list of blocks; a block that is already there is absorbed. -/
def absorb (lh : List Nat) (b : Nat) : List Nat := if b ∈ lh then lh else lh ++ [b]

variable {P : Type} [DecidableEq P]

def LogState.setPc (s : LogState P) (p : P) (c : Pc) : LogState P :=
  { s with pc := update s.pc p c }

/-- One pass of `begin_op`'s loop under `log.lock`. -/
def beginOp (s : LogState P) (p : P) : LogState P :=
  if s.committing then s.setPc p .asleep
  else if NoSpace s.lh.length s.outstanding then s.setPc p .asleep
  else { s with outstanding := s.outstanding + 1 }.setPc p (.inOp [])

def logWrite (size : Nat) (s : LogState P) (p : P) (b : Nat) (wrote : List Nat) :
    Except Panic (LogState P) :=
  if LOGSIZE ≤ s.lh.length ∨ size - 1 ≤ s.lh.length then .error .tooBig
  else if s.outstanding < 1 then .error .outsideTrans
  else .ok ({ s with lh := absorb s.lh b }.setPc p (.inOp (wrote ++ [b])))

/-- The first critical section of `end_op`. -/
def endOp (s : LogState P) (p : P) (wrote : List Nat) : Except Panic (LogState P) :=
  let s := { s with outstanding := s.outstanding - 1, ops := s.ops ++ [wrote] }
  if s.committing then .error .logCommitting
  else if s.outstanding = 0 then .ok ({ s with committing := true }.setPc p (.commit .start))
  else .ok { s with pc := wakeup (update s.pc p .outside) }

/-- One step of `commit`, which runs without `log.lock`. -/
def commitStep (s : LogState P) (p : P) : Stage → Option (LogState P)
  | .start =>
      if 0 < s.lh.length then some (s.setPc p (.commit (.writeLog 0)))
      else some ({ s with ops := [] }.setPc p (.commit .done))
  | .writeLog tail =>
      if tail < s.lh.length then some (s.setPc p (.commit (.writeLog (tail + 1))))
      else some (s.setPc p (.commit .writeHead))
  | .writeHead => some (s.setPc p (.commit (.install 0)))
  | .install tail =>
      if tail < s.lh.length then some (s.setPc p (.commit (.install (tail + 1))))
      else some (s.setPc p (.commit .clear))
  | .clear => some ({ s with lh := [], ops := [] }.setPc p (.commit .eraseHead))
  | .eraseHead => some (s.setPc p (.commit .done))
  | .done => none

/-- The second critical section of `end_op`, after `commit`. -/
def endCommit (s : LogState P) (p : P) : LogState P :=
  { s with committing := false, pc := wakeup (update s.pc p .outside) }

/-- One atomic step of one process: `none` when the process is not there. -/
def step (size : Nat) (s : LogState P) : Label P → Option (Except Panic (LogState P))
  | .callBegin p => if s.pc p = .outside then some (.ok (s.setPc p .entering)) else none
  | .beginOp p => if s.pc p = .entering then some (.ok (beginOp s p)) else none
  | .wake p => if s.pc p = .asleep then some (.ok (s.setPc p .entering)) else none
  | .logWrite p b =>
      match s.pc p with
      | .inOp wrote => some (logWrite size s p b wrote)
      | _ => none
  | .endOp p =>
      match s.pc p with
      | .inOp wrote => some (endOp s p wrote)
      | _ => none
  | .commitStep p =>
      match s.pc p with
      | .commit c => (commitStep s p c).map .ok
      | _ => none
  | .endCommit p => if s.pc p = .commit .done then some (.ok (endCommit s p)) else none

/-- The steps that do not panic. -/
def Step (size : Nat) (s : LogState P) (l : Label P) (t : LogState P) : Prop :=
  step size s l = some (.ok t)

end Xv6.Log
