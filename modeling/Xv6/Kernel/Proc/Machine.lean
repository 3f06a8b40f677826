import Xv6.Framework.Transition
import Xv6.Kernel.Param

namespace Xv6.Proc

open Transition Function

/-- `enum procstate`. -/
inductive ProcState
  | UNUSED
  | USED
  | SLEEPING
  | RUNNABLE
  | RUNNING
  | ZOMBIE
  deriving DecidableEq

/-- The spinlocks: `p->lock` of every slot, `wait_lock`, `pid_lock`, and any others, as those that
are given to `sleep`. -/
inductive Lock (n : Nat) (M : Type)
  | proc (i : Fin n)
  | wait
  | pid
  | other (m : M)
  deriving DecidableEq

/-- What a process sleeps on: the address of a slot, in `wait`, or something that another lock
protects. -/
inductive Chan (n : Nat) (M K : Type)
  | proc (i : Fin n)
  | key (m : M) (k : K)
  deriving DecidableEq

/-- The fields of `struct proc` under `p->lock`. As history, the number of the process among all
that were ever made, and the number of the one that made it. -/
structure Slot (n : Nat) (M K : Type) where
  state : ProcState
  chan : Option (Chan n M K)
  killed : Bool
  xstate : Int
  pid : Int
  pagetable : Bool
  trapframe : Bool
  birth : Nat
  creator : Nat

/-- The kernel threads: one for each slot of the process table, and the scheduler of each CPU. -/
inductive Thread (n : Nat) (C : Type)
  | proc (p : Fin n)
  | cpu (c : C)
  deriving DecidableEq

/-- From where a process takes another lock: outside of the functions of `proc.c`, or in `exit`, in
the course of closing the file `fd`. -/
inductive Caller
  | user
  | exit (status : Int) (fd : Nat)
  deriving DecidableEq

/-- The lines of the functions of `proc.c` at which a thread can be. A process that is in none of
them is at `user`, with the value that its last call returned, or at `crit`, where it holds another
lock. -/
inductive Pc (n : Nat) (M : Type)
  | user (r : Int)
  | crit (m : M) (caller : Caller)
  | forkret
  -- `allocproc` and `allocpid`
  | allocLock (i : Nat)
  | allocTest (i : Fin n)
  | allocSkip (i : Fin n)
  | pidLock (i : Fin n)
  | pidTake (i : Fin n)
  | pidUnlock (i : Fin n) (pid : Int)
  | setPid (i : Fin n) (pid : Int)
  | setUsed (i : Fin n)
  | trapframe (i : Fin n)
  | pagetable (i : Fin n)
  | context (i : Fin n)
  -- `fork`
  | uvmcopy (i : Fin n)
  | filedup (i : Fin n)
  | forkFree (i : Fin n)
  | forkFail (i : Fin n)
  | forkUnlock (i : Fin n)
  | parentLock (i : Fin n) (pid : Int)
  | setParent (i : Fin n) (pid : Int)
  | parentUnlock (i : Fin n) (pid : Int)
  | runLock (i : Fin n) (pid : Int)
  | setRunnable (i : Fin n) (pid : Int)
  | runUnlock (i : Fin n) (pid : Int)
  -- `exit` and `reparent`
  | exitFiles (status : Int) (fd : Nat)
  | exitLock (status : Int)
  | reparent (status : Int) (j : Nat)
  | adopt (status : Int) (j : Fin n)
  | exitWake (status : Int)
  | exitLockp (status : Int)
  | exitXstate (status : Int)
  | exitZombie (status : Int)
  | exitUnlock
  | exitSched
  | exited
  -- `wait`
  | waitLock
  | waitScan (j : Nat) (havekids : Bool)
  | waitLockp (j : Fin n)
  | waitTest (j : Fin n)
  | waitCopy (j : Fin n)
  | waitFree (j : Fin n)
  | waitUnlockp (j : Fin n) (r : Int)
  | waitSkip (j : Fin n)
  | waitKilledLock
  | waitKilledTest
  | waitKilledUnlock (b : Bool)
  | waitUnlock (r : Int)
  -- `kill` and `setkilled`
  | killLock (pid : Int) (j : Nat)
  | killTest (pid : Int) (j : Fin n)
  | killMark (pid : Int) (j : Fin n)
  | killRouse (pid : Int) (j : Fin n)
  | killUnlock (pid : Int) (j : Fin n)
  | killSkip (pid : Int) (j : Fin n)
  | setkilledLock
  | setkilledMark
  | setkilledUnlock
  -- `scheduler`
  | schedLock (i : Fin n)
  | schedTest (i : Fin n)
  | schedPick (i : Fin n)
  | schedProc (i : Fin n)
  | schedSwtch (i : Fin n)
  | schedBack (i : Fin n)
  | schedUnlock (i : Fin n)
  deriving DecidableEq

/-- The lines of `wakeup`. -/
inductive WakePc (n : Nat)
  | next (i : Nat)
  | test (i : Fin n)
  | set (i : Fin n)
  | unlock (i : Fin n)
  deriving DecidableEq

structure Wake (n : Nat) (M K : Type) where
  chan : Option (Chan n M K)
  pc : WakePc n

/-- Where `wakeup` returns to: the loop of `reparent`, `exit` after it, or code with another lock. -/
inductive WakeCont (M : Type)
  | reparent (status : Int) (j : Nat)
  | exit (status : Int)
  | crit (m : M) (caller : Caller)

/-- The lines of `sleep`; at `resumed` the thread is back from `sched`. -/
inductive SleepPc
  | lockp
  | unlock
  | chan
  | state
  | sched
  | resumed
  | unlockp
  | relock
  deriving DecidableEq

/-- Who called `sleep`. -/
inductive SleepCont (M K : Type)
  | wait
  | crit (m : M) (caller : Caller) (k : K)
  deriving DecidableEq

/-- The lines of `yield`. -/
inductive YieldPc
  | lockp
  | state
  | sched
  | resumed
  deriving DecidableEq

/-- Where a thread stands: at a line, in `wakeup` or `sleep` called from there, in `yield` called by
a timer interrupt, or interrupted by a handler that holds another lock. -/
inductive Ctl (n : Nat) (M K : Type)
  | run (pc : Pc n M)
  | wake (w : Wake n M K) (cont : WakeCont M)
  | sleep (pc : SleepPc) (cont : SleepCont M K)
  | yield (pc : YieldPc) (back : Pc n M)
  | intr (m : M) (w : Option (Wake n M K)) (back : Pc n M)

/-- An exit with the number of the process, its pid and the status. -/
structure Exit where
  birth : Nat
  pid : Int
  status : Int
  deriving DecidableEq

/-- A process returned by `wait`, and the number of the process that waited. -/
structure Reap where
  exit : Exit
  waiter : Nat
  deriving DecidableEq

/-- The process table, the CPUs and the kernel threads. The context a CPU runs in is that of the
process `running`, or the scheduler's. -/
structure Kernel (n : Nat) (C M K : Type) where
  slot : Fin n → Slot n M K
  parent : Fin n → Option (Fin n)
  ofile : Fin n → Fin NOFILE → Bool
  nextpid : Int
  lock : Lock n M → Option C
  cproc : C → Option (Fin n)
  running : C → Option (Fin n)
  ctl : Thread n C → Ctl n M K
  births : Nat
  forks : Nat
  exits : List Exit
  reaps : List Reap

/-- What one step does to the table and the CPU. -/
inductive Op (n : Nat) (M K : Type)
  | skip
  | acquire (ℓ : Lock n M)
  | release (ℓ : Lock n M)
  | takePid
  | pid (i : Fin n) (pid : Int)
  | used (i : Fin n) (creator : Nat)
  | trapframe (i : Fin n)
  | pagetable (i : Fin n)
  | context (i : Fin n)
  | files (i : Fin n) (f : Fin NOFILE → Bool)
  | freeproc (i : Fin n)
  | reap (i : Fin n) (waiter : Nat)
  | parent (i : Fin n) (q : Fin n)
  | state (i : Fin n) (st : ProcState)
  | chan (i : Fin n) (ch : Option (Chan n M K))
  | killed (i : Fin n)
  | xstate (i : Fin n) (status : Int)
  | zombie (i : Fin n) (status : Int)
  | cproc (q : Option (Fin n))
  | swtch (q : Option (Fin n))

/-- The system call of a process at `user`; what it does with another lock; an interrupt; `go` for
any other line, with whether the allocation or copy there succeeds. -/
inductive Input (M K : Type)
  | go (ok : Bool)
  | fork
  | exit (status : Int)
  | wait
  | kill (pid : Int)
  | setkilled
  | files (f : Fin NOFILE → Bool)
  | lock (m : M)
  | wakeup (k : K)
  | sleep (k : K)
  | unlock
  | yield
  | intr (m : M)

variable {n : Nat} {C M K : Type}

def Slot.free (sl : Slot n M K) : Slot n M K :=
  { sl with
    state := .UNUSED, chan := none, killed := false, xstate := 0, pid := 0, pagetable := false
    trapframe := false }

def Caller.pc : Caller → Pc n M
  | .user => .user 0
  | .exit status fd => .exitFiles status fd

def Thread.own : Thread n C → List (Lock n M)
  | .proc p => [.proc p]
  | .cpu _ => []

/-- The locks a thread holds at a line. -/
def Pc.holds (t : Thread n C) : Pc n M → List (Lock n M)
  | .user _ => []
  | .crit m _ => [.other m]
  | .forkret => t.own
  | .allocLock _ => []
  | .allocTest i => [.proc i]
  | .allocSkip i => [.proc i]
  | .pidLock i => [.proc i]
  | .pidTake i => [.pid, .proc i]
  | .pidUnlock i _ => [.pid, .proc i]
  | .setPid i _ => [.proc i]
  | .setUsed i => [.proc i]
  | .trapframe i => [.proc i]
  | .pagetable i => [.proc i]
  | .context i => [.proc i]
  | .uvmcopy i => [.proc i]
  | .filedup i => [.proc i]
  | .forkFree i => [.proc i]
  | .forkFail i => [.proc i]
  | .forkUnlock i => [.proc i]
  | .parentLock _ _ => []
  | .setParent _ _ => [.wait]
  | .parentUnlock _ _ => [.wait]
  | .runLock _ _ => []
  | .setRunnable i _ => [.proc i]
  | .runUnlock i _ => [.proc i]
  | .exitFiles _ _ => []
  | .exitLock _ => []
  | .reparent _ _ => [.wait]
  | .adopt _ _ => [.wait]
  | .exitWake _ => [.wait]
  | .exitLockp _ => [.wait]
  | .exitXstate _ => .wait :: t.own
  | .exitZombie _ => .wait :: t.own
  | .exitUnlock => .wait :: t.own
  | .exitSched => t.own
  | .exited => t.own
  | .waitLock => []
  | .waitScan _ _ => [.wait]
  | .waitLockp _ => [.wait]
  | .waitTest j => [.proc j, .wait]
  | .waitCopy j => [.proc j, .wait]
  | .waitFree j => [.proc j, .wait]
  | .waitUnlockp j _ => [.proc j, .wait]
  | .waitSkip j => [.proc j, .wait]
  | .waitKilledLock => [.wait]
  | .waitKilledTest => .wait :: t.own
  | .waitKilledUnlock _ => .wait :: t.own
  | .waitUnlock _ => [.wait]
  | .killLock _ _ => []
  | .killTest _ j => [.proc j]
  | .killMark _ j => [.proc j]
  | .killRouse _ j => [.proc j]
  | .killUnlock _ j => [.proc j]
  | .killSkip _ j => [.proc j]
  | .setkilledLock => []
  | .setkilledMark => t.own
  | .setkilledUnlock => t.own
  | .schedLock _ => []
  | .schedTest i => [.proc i]
  | .schedPick i => [.proc i]
  | .schedProc i => [.proc i]
  | .schedSwtch i => [.proc i]
  | .schedBack i => [.proc i]
  | .schedUnlock i => [.proc i]

def WakePc.holds : WakePc n → List (Lock n M)
  | .next _ => []
  | .test i => [.proc i]
  | .set i => [.proc i]
  | .unlock i => [.proc i]

def WakeCont.lock : WakeCont M → Lock n M
  | .reparent _ _ => .wait
  | .exit _ => .wait
  | .crit m _ => .other m

def WakeCont.pc : WakeCont M → Pc n M
  | .reparent status j => .reparent status j
  | .exit status => .exitLockp status
  | .crit m caller => .crit m caller

def SleepCont.lock : SleepCont M K → Lock n M
  | .wait => .wait
  | .crit m _ _ => .other m

def SleepCont.chan (p : Fin n) : SleepCont M K → Chan n M K
  | .wait => .proc p
  | .crit m _ k => .key m k

def SleepCont.pc : SleepCont M K → Pc n M
  | .wait => .waitScan 0 false
  | .crit m caller _ => .crit m caller

def SleepPc.holds (t : Thread n C) (ℓ : Lock n M) : SleepPc → List (Lock n M)
  | .lockp => [ℓ]
  | .unlock => ℓ :: t.own
  | .chan => t.own
  | .state => t.own
  | .sched => t.own
  | .resumed => t.own
  | .unlockp => t.own
  | .relock => []

def YieldPc.holds (t : Thread n C) : YieldPc → List (Lock n M)
  | .lockp => []
  | .state => t.own
  | .sched => t.own
  | .resumed => t.own

def Ctl.holds (t : Thread n C) : Ctl n M K → List (Lock n M)
  | .run pc => pc.holds t
  | .wake w cont => cont.lock :: w.pc.holds
  | .sleep pc cont => pc.holds t cont.lock
  | .yield pc _ => pc.holds t
  | .intr m none _ => [.other m]
  | .intr m (some w) _ => .other m :: w.pc.holds

def initproc (n : Nat) [NeZero n] : Fin n := 0

/-- The 32-bit `int` with the value `z`, up to a multiple of `2 ^ 32`. -/
def toInt32 (z : Int) : Int := (z + 2 ^ 31) % 2 ^ 32 - 2 ^ 31

namespace Kernel

section Table

variable [DecidableEq C]

/-- After `userinit`, with every CPU at the start of `scheduler`. -/
def init [NeZero n] : Kernel n C M K where
  slot i :=
    if i = initproc n then ⟨.RUNNABLE, none, false, 0, 1, true, true, 0, 0⟩
    else ⟨.UNUSED, none, false, 0, 0, false, false, 0, 0⟩
  parent _ := none
  ofile _ _ := false
  nextpid := 2
  lock _ := none
  cproc _ := none
  running _ := none
  ctl
    | .proc p => .run (if p = initproc n then .forkret else .exited)
    | .cpu _ => .run (.schedLock 0)
  births := 1
  forks := 0
  exits := []
  reaps := []

/-- The thread in whose context the CPU runs. -/
def cur (s : Kernel n C M K) (c : C) : Thread n C :=
  match s.running c with
  | some p => .proc p
  | none => .cpu c

def setCtl (s : Kernel n C M K) (t : Thread n C) (x : Ctl n M K) : Kernel n C M K :=
  { s with ctl := update s.ctl t x }

def write (s : Kernel n C M K) (i : Fin n) (sl : Slot n M K) : Kernel n C M K :=
  { s with slot := update s.slot i sl }

section

variable (s : Kernel n C M K)

omit [DecidableEq C] in
theorem write_self (i : Fin n) (sl : Slot n M K) : (s.write i sl).slot i = sl := update_self ..

omit [DecidableEq C] in
theorem write_ne {i j : Fin n} (h : j ≠ i) (sl : Slot n M K) :
    (s.write i sl).slot j = s.slot j := update_of_ne h ..

theorem setCtl_self (t : Thread n C) (x : Ctl n M K) : (s.setCtl t x).ctl t = x := update_self ..

theorem setCtl_ne {t u : Thread n C} (h : u ≠ t) (x : Ctl n M K) :
    (s.setCtl t x).ctl u = s.ctl u := update_of_ne h ..

end

def freeproc (s : Kernel n C M K) (i : Fin n) : Kernel n C M K :=
  { s.write i (s.slot i).free with parent := update s.parent i none }

end Table

variable [NeZero n] [DecidableEq C] [DecidableEq M] [DecidableEq K]

/-- The effect of a step of a thread on the CPU `c`. A lock that is not free has to be waited for. -/
def exec (s : Kernel n C M K) (c : C) : Op n M K → Option (Kernel n C M K)
  | .skip => some s
  | .acquire ℓ =>
      if s.lock ℓ = none then some { s with lock := update s.lock ℓ (some c) } else none
  | .release ℓ =>
      if s.lock ℓ = some c then some { s with lock := update s.lock ℓ none } else none
  | .takePid => some { s with nextpid := toInt32 (s.nextpid + 1), forks := s.forks + 1 }
  | .pid i pid => some (s.write i { s.slot i with pid := pid })
  | .used i creator => some { s.write i { s.slot i with
      state := .USED, birth := s.births, creator := creator } with births := s.births + 1 }
  | .trapframe i => some (s.write i { s.slot i with trapframe := true })
  | .pagetable i => some (s.write i { s.slot i with pagetable := true })
  | .context i => some (s.setCtl (.proc i) (.run .forkret))
  | .files i f => some { s with ofile := update s.ofile i f }
  | .freeproc i => some (s.freeproc i)
  | .reap i waiter => some { s.freeproc i with
      reaps := s.reaps ++ [⟨⟨(s.slot i).birth, (s.slot i).pid, (s.slot i).xstate⟩, waiter⟩] }
  | .parent i q => some { s with parent := update s.parent i (some q) }
  | .state i st => some (s.write i { s.slot i with state := st })
  | .chan i ch => some (s.write i { s.slot i with chan := ch })
  | .killed i => some (s.write i { s.slot i with killed := true })
  | .xstate i status => some (s.write i { s.slot i with xstate := status })
  | .zombie i status => some { s.write i { s.slot i with state := .ZOMBIE } with
      exits := s.exits ++ [⟨(s.slot i).birth, (s.slot i).pid, status⟩] }
  | .cproc q => some { s with cproc := update s.cproc c q }
  | .swtch q => some { s with running := update s.running c q }

/-- A step in `wakeup`, called on a CPU on which `myproc()` is `self`; the loop is over when there
is no next line. -/
def wakeNext (s : Kernel n C M K) (self : Option (Fin n)) (w : Wake n M K) :
    Op n M K × Option (Wake n M K) :=
  match w.pc with
  | .next i =>
      if h : i < n then
        if self = some ⟨i, h⟩ then (.skip, some ⟨w.chan, .next (i + 1)⟩)
        else (.acquire (.proc ⟨i, h⟩), some ⟨w.chan, .test ⟨i, h⟩⟩)
      else (.skip, none)
  | .test i =>
      if (s.slot i).state = .SLEEPING ∧ (s.slot i).chan = w.chan then
        (.skip, some ⟨w.chan, .set i⟩)
      else (.skip, some ⟨w.chan, .unlock i⟩)
  | .set i => (.state i .RUNNABLE, some ⟨w.chan, .unlock i⟩)
  | .unlock i => (.release (.proc i), some ⟨w.chan, .next (i + 1)⟩)

def sleepNext (p : Fin n) (cont : SleepCont M K) : SleepPc → Op n M K × Ctl n M K
  | .lockp => (.acquire (.proc p), .sleep .unlock cont)
  | .unlock => (.release cont.lock, .sleep .chan cont)
  | .chan => (.chan p (some (cont.chan p)), .sleep .state cont)
  | .state => (.state p .SLEEPING, .sleep .sched cont)
  | .sched => (.swtch none, .sleep .resumed cont)
  | .resumed => (.chan p none, .sleep .unlockp cont)
  | .unlockp => (.release (.proc p), .sleep .relock cont)
  | .relock => (.acquire cont.lock, .run cont.pc)

def yieldNext (p : Fin n) (back : Pc n M) : YieldPc → Op n M K × Ctl n M K
  | .lockp => (.acquire (.proc p), .yield .state back)
  | .state => (.state p .RUNNABLE, .yield .sched back)
  | .sched => (.swtch none, .yield .resumed back)
  | .resumed => (.release (.proc p), .run back)

/-- A process at `user` makes a call, or takes another lock. `exit` of the first process is a panic. -/
def userNext (p : Fin n) (r : Int) : Input M K → Option (Op n M K × Ctl n M K)
  | .go _ => some (.skip, .run (.user r))
  | .fork => some (.skip, .run (.allocLock 0))
  | .exit status => if p = initproc n then none else some (.skip, .run (.exitFiles status 0))
  | .wait => some (.skip, .run .waitLock)
  | .kill pid => some (.skip, .run (.killLock pid 0))
  | .setkilled => some (.skip, .run .setkilledLock)
  | .files f => some (.files p f, .run (.user r))
  | .lock m => some (.acquire (.other m), .run (.crit m .user))
  | _ => none

/-- `exit` closes the files one after the other, for which it takes other locks. -/
def exitNext (s : Kernel n C M K) (p : Fin n) (status : Int) (fd : Nat) :
    Input M K → Option (Op n M K × Ctl n M K)
  | .go _ =>
      if h : fd < NOFILE then
        some (.files p (update (s.ofile p) ⟨fd, h⟩ false), .run (.exitFiles status (fd + 1)))
      else some (.skip, .run (.exitLock status))
  | .lock m => some (.acquire (.other m), .run (.crit m (.exit status fd)))
  | _ => none

def critNext (m : M) (caller : Caller) : Input M K → Option (Op n M K × Ctl n M K)
  | .go _ => some (.skip, .run (.crit m caller))
  | .wakeup k => some (.skip, .wake ⟨some (.key m k), .next 0⟩ (.crit m caller))
  | .sleep k => some (.skip, .sleep .lockp (.crit m caller k))
  | .unlock => some (.release (.other m), .run caller.pc)
  | _ => none

/-- A step of the process `p` at a line of `proc.c`. -/
def procNext (s : Kernel n C M K) (p : Fin n) (ok : Bool) : Pc n M → Option (Op n M K × Ctl n M K)
  | .forkret => some (.release (.proc p), .run (.user 0))
  | .allocLock i =>
      if h : i < n then some (.acquire (.proc ⟨i, h⟩), .run (.allocTest ⟨i, h⟩))
      else some (.skip, .run (.user (-1)))
  | .allocTest i =>
      if (s.slot i).state = .UNUSED then some (.skip, .run (.pidLock i))
      else some (.skip, .run (.allocSkip i))
  | .allocSkip i => some (.release (.proc i), .run (.allocLock (i + 1)))
  | .pidLock i => some (.acquire .pid, .run (.pidTake i))
  | .pidTake i => some (.takePid, .run (.pidUnlock i s.nextpid))
  | .pidUnlock i pid => some (.release .pid, .run (.setPid i pid))
  | .setPid i pid => some (.pid i pid, .run (.setUsed i))
  | .setUsed i => some (.used i (s.slot p).birth, .run (.trapframe i))
  | .trapframe i =>
      if ok then some (.trapframe i, .run (.pagetable i)) else some (.skip, .run (.forkFree i))
  | .pagetable i =>
      if ok then some (.pagetable i, .run (.context i)) else some (.skip, .run (.forkFree i))
  | .context i => some (.context i, .run (.uvmcopy i))
  | .uvmcopy i => if ok then some (.skip, .run (.filedup i)) else some (.skip, .run (.forkFree i))
  | .filedup i => some (.files i fun fd => s.ofile p fd || s.ofile i fd, .run (.forkUnlock i))
  | .forkFree i => some (.freeproc i, .run (.forkFail i))
  | .forkFail i => some (.release (.proc i), .run (.user (-1)))
  | .forkUnlock i => some (.release (.proc i), .run (.parentLock i (s.slot i).pid))
  | .parentLock i pid => some (.acquire .wait, .run (.setParent i pid))
  | .setParent i pid => some (.parent i p, .run (.parentUnlock i pid))
  | .parentUnlock i pid => some (.release .wait, .run (.runLock i pid))
  | .runLock i pid => some (.acquire (.proc i), .run (.setRunnable i pid))
  | .setRunnable i pid => some (.state i .RUNNABLE, .run (.runUnlock i pid))
  | .runUnlock i pid => some (.release (.proc i), .run (.user pid))
  | .exitLock status => some (.acquire .wait, .run (.reparent status 0))
  | .reparent status j =>
      if h : j < n then
        if s.parent ⟨j, h⟩ = some p then some (.skip, .run (.adopt status ⟨j, h⟩))
        else some (.skip, .run (.reparent status (j + 1)))
      else some (.skip, .run (.exitWake status))
  | .adopt status j =>
      some (.parent j (initproc n),
        .wake ⟨some (.proc (initproc n)), .next 0⟩ (.reparent status (j + 1)))
  | .exitWake status =>
      some (.skip, .wake ⟨(s.parent p).map .proc, .next 0⟩ (.exit status))
  | .exitLockp status => some (.acquire (.proc p), .run (.exitXstate status))
  | .exitXstate status => some (.xstate p status, .run (.exitZombie status))
  | .exitZombie status => some (.zombie p status, .run .exitUnlock)
  | .exitUnlock => some (.release .wait, .run .exitSched)
  | .exitSched => some (.swtch none, .run .exited)
  | .waitLock => some (.acquire .wait, .run (.waitScan 0 false))
  | .waitScan j havekids =>
      if h : j < n then
        if s.parent ⟨j, h⟩ = some p then some (.skip, .run (.waitLockp ⟨j, h⟩))
        else some (.skip, .run (.waitScan (j + 1) havekids))
      else if havekids then some (.skip, .run .waitKilledLock)
      else some (.skip, .run (.waitUnlock (-1)))
  | .waitLockp j => some (.acquire (.proc j), .run (.waitTest j))
  | .waitTest j =>
      if (s.slot j).state = .ZOMBIE then some (.skip, .run (.waitCopy j))
      else some (.skip, .run (.waitSkip j))
  | .waitCopy j =>
      if ok then some (.skip, .run (.waitFree j)) else some (.skip, .run (.waitUnlockp j (-1)))
  | .waitFree j => some (.reap j (s.slot p).birth, .run (.waitUnlockp j (s.slot j).pid))
  | .waitUnlockp j r => some (.release (.proc j), .run (.waitUnlock r))
  | .waitSkip j => some (.release (.proc j), .run (.waitScan (j + 1) true))
  | .waitKilledLock => some (.acquire (.proc p), .run .waitKilledTest)
  | .waitKilledTest => some (.skip, .run (.waitKilledUnlock (s.slot p).killed))
  | .waitKilledUnlock b =>
      if b then some (.release (.proc p), .run (.waitUnlock (-1)))
      else some (.release (.proc p), .sleep .lockp .wait)
  | .waitUnlock r => some (.release .wait, .run (.user r))
  | .killLock pid j =>
      if h : j < n then some (.acquire (.proc ⟨j, h⟩), .run (.killTest pid ⟨j, h⟩))
      else some (.skip, .run (.user (-1)))
  | .killTest pid j =>
      if (s.slot j).pid = pid then some (.skip, .run (.killMark pid j))
      else some (.skip, .run (.killSkip pid j))
  | .killMark pid j => some (.killed j, .run (.killRouse pid j))
  | .killRouse pid j =>
      if (s.slot j).state = .SLEEPING then some (.state j .RUNNABLE, .run (.killUnlock pid j))
      else some (.skip, .run (.killUnlock pid j))
  | .killUnlock _ j => some (.release (.proc j), .run (.user 0))
  | .killSkip pid j => some (.release (.proc j), .run (.killLock pid (j + 1)))
  | .setkilledLock => some (.acquire (.proc p), .run .setkilledMark)
  | .setkilledMark => some (.killed p, .run .setkilledUnlock)
  | .setkilledUnlock => some (.release (.proc p), .run (.user 0))
  | _ => none

def schedNext (s : Kernel n C M K) : Pc n M → Option (Op n M K × Ctl n M K)
  | .schedLock i => some (.acquire (.proc i), .run (.schedTest i))
  | .schedTest i =>
      if (s.slot i).state = .RUNNABLE then some (.skip, .run (.schedPick i))
      else some (.skip, .run (.schedUnlock i))
  | .schedPick i => some (.state i .RUNNING, .run (.schedProc i))
  | .schedProc i => some (.cproc (some i), .run (.schedSwtch i))
  | .schedSwtch i => some (.swtch (some i), .run (.schedBack i))
  | .schedBack i => some (.cproc none, .run (.schedUnlock i))
  | .schedUnlock i => some (.release (.proc i), .run (.schedLock (i + 1)))
  | _ => none

/-- A step of a thread at a line. Interrupts are off while it holds a lock. -/
def runNext (s : Kernel n C M K) (t : Thread n C) (pc : Pc n M) :
    Input M K → Option (Op n M K × Ctl n M K)
  | .intr m =>
      if pc.holds (M := M) t = [] then some (.acquire (.other m), .intr m none pc) else none
  | inp =>
      match t with
      | .cpu _ =>
          match inp with
          | .go _ => s.schedNext pc
          | _ => none
      | .proc p =>
          match pc, inp with
          | _, .yield => if pc.holds (M := M) t = [] then some (.skip, .yield .lockp pc) else none
          | .user r, _ => userNext p r inp
          | .crit m caller, _ => critNext m caller inp
          | .exitFiles status fd, _ => s.exitNext p status fd inp
          | _, .go ok => s.procNext p ok pc
          | _, _ => none

/-- The next step of the CPU `c`, in the context of the thread `t`. -/
def next (s : Kernel n C M K) (c : C) (t : Thread n C) (inp : Input M K) :
    Option (Op n M K × Ctl n M K) :=
  match s.ctl t, t, inp with
  | .run pc, _, _ => s.runNext t pc inp
  | .wake w cont, _, .go _ =>
      match s.wakeNext (s.cproc c) w with
      | (op, some w) => some (op, .wake w cont)
      | (op, none) => some (op, .run cont.pc)
  | .sleep pc cont, .proc p, .go _ => some (sleepNext p cont pc)
  | .yield pc back, .proc p, .go _ => some (yieldNext p back pc)
  | .intr m (some w) back, _, .go _ =>
      let (op, w) := s.wakeNext (s.cproc c) w
      some (op, .intr m w back)
  | .intr m none back, _, .go _ => some (.skip, .intr m none back)
  | .intr m none back, _, .wakeup k => some (.skip, .intr m (some ⟨some (.key m k), .next 0⟩) back)
  | .intr m none back, _, .unlock => some (.release (.other m), .run back)
  | _, _, _ => none

def step (s : Kernel n C M K) (c : C) (inp : Input M K) : Option (Kernel n C M K) :=
  (s.next c (s.cur c) inp).bind fun r => (s.exec c r.1).map fun s' => s'.setCtl (s.cur c) r.2

def Step (s : Kernel n C M K) (l : C × Input M K) (s' : Kernel n C M K) : Prop :=
  s.step l.1 l.2 = some s'

end Kernel

end Xv6.Proc
