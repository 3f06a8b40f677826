import Xv6.Kernel.Cached.Cache
import Xv6.Kernel.Log.Invariant

namespace Xv6.Cached

open Bio Log Transition Function Option

/-- The local variables of `write_log`, `install_trans` and `write_head`: the buffer of a log
block and the buffer of a home block. -/
inductive Reg
  | log
  | home
  deriving DecidableEq, Repr

/-- What the committing process does next. -/
inductive Cmd
  | touch (r : Reg) (a : Cache.Touch)
  | memmove (dst src : Reg)
  | putHead (r : Reg)
  | bwrite (r : Reg)
  | bunpin (r : Reg)
  deriving DecidableEq, Repr

def bread (r : Reg) (b : Nat) : List Cmd :=
  [.touch r (.bget b), .touch r .acquiresleep, .touch r .fill]

def brelse (r : Reg) : List Cmd := [.touch r .releasesleep, .touch r .drop]

def writeLogBody (L : LogArea) (tail b : Nat) : List Cmd :=
  bread .log (L.start + tail + 1) ++ bread .home b ++
    [.memmove .log .home, .bwrite .log] ++ brelse .home ++ brelse .log

def installBody (L : LogArea) (tail b : Nat) : List Cmd :=
  bread .log (L.start + tail + 1) ++ bread .home b ++
    [.memmove .home .log, .bwrite .home, .bunpin .home] ++ brelse .log ++ brelse .home

def writeHeadBody (L : LogArea) : List Cmd :=
  bread .log L.start ++ [.putHead .log, .bwrite .log] ++ brelse .log

def script (L : LogArea) (lh : List Nat) : Stage → List Cmd
  | .writeLog tail => (lh[tail]?).elim [] (writeLogBody L tail)
  | .install tail => (lh[tail]?).elim [] (installBody L tail)
  | .writeHead => writeHeadBody L
  | .eraseHead => writeHeadBody L
  | .start | .clear | .done => []

/-- The log, the cache, and of each process the commit code it still has to run and its
registers. -/
structure Sys (P : Type) where
  log : LogState P
  cache : Cache P
  code : P → List Cmd
  reg : P → Reg → Fin NBUF

inductive Label (P : Type)
  /-- A step of the log layer other than `log_write`. -/
  | log (l : Log.Label P)
  | touch (p : P) (i : Fin NBUF) (a : Cache.Touch)
  | modify (p : P) (i : Fin NBUF) (data : Block)
  | logWrite (p : P) (i : Fin NBUF)
  /-- The committing process runs its next command; `i` is what `bget` would settle on. -/
  | run (p : P) (i : Fin NBUF)

def actor {P : Type} : Log.Label P → P
  | .callBegin p | .beginOp p | .wake p | .logWrite p _ | .endOp p | .commitStep p
  | .endCommit p => p

def codeAt (L : LogArea) (lh : List Nat) : Pc → List Cmd
  | .commit c => script L lh c
  | _ => []

variable {P : Type} [DecidableEq P] [Fintype P]

/-- When a process may leave its place in the log layer: no buffer is kept across `end_op`, and a
stage of `commit` is left when its code has run. -/
def MayLog (s : Sys P) : Log.Label P → Prop
  | .logWrite _ _ => False
  | .endOp p => ∀ i, s.cache.hold i p = .none
  | .commitStep p | .endCommit p => s.code p = []
  | _ => True

instance (s : Sys P) : (l : Log.Label P) → Decidable (MayLog s l)
  | .logWrite _ _ => inferInstanceAs (Decidable False)
  | .endOp p => inferInstanceAs (Decidable (∀ i, s.cache.hold i p = .none))
  | .commitStep p | .endCommit p => inferInstanceAs (Decidable (s.code p = []))
  | .callBegin _ | .beginOp _ | .wake _ => inferInstanceAs (Decidable True)

def Runs (c : Pc) : Prop := c = .outside ∨ c.isInOp = true

instance (c : Pc) : Decidable (Runs c) := inferInstanceAs (Decidable (_ ∨ _))

/-- The blocks of transactions: outside the log, with a number that fits a `uint`. -/
def Writable (L : LogArea) (b : Nat) : Prop := L.Home b ∧ b < 2 ^ 32

instance (L : LogArea) (b : Nat) : Decidable (Writable L b) := inferInstanceAs (Decidable (_ ∧ _))

/-- One command of the committing process `p` at stage `c`. -/
def runCmd (dev : Nat) (s : Sys P) (p : P) (c : Stage) (i : Fin NBUF) : Cmd → Option (Sys P)
  | .touch r (.bget b) =>
      (s.cache.touch dev p i (.bget b)).map fun cache =>
        { s with cache := cache, reg := update s.reg p (update (s.reg p) r i) }
  | .touch r a =>
      (s.cache.touch dev p (s.reg p r) a).map fun cache => { s with cache := cache }
  | .memmove dst src =>
      (s.cache.modify p (s.reg p dst) (s.cache.buf (s.reg p src)).data).map fun cache =>
        { s with cache := cache }
  | .putHead r =>
      (s.cache.modify p (s.reg p r) (Log.putHead (s.log.lh.map UInt32.ofNat)
        (s.cache.buf (s.reg p r)).data)).map fun cache => { s with cache := cache }
  | .bwrite r =>
      (s.cache.bwrite p (s.reg p r)).map fun cache =>
        { s with cache := if c = .writeHead then cache.commitAll else cache }
  | .bunpin r => some { s with cache := s.cache.bunpin p (s.reg p r) }

/-- One atomic step of one process; `none` when it cannot be taken. -/
def step (L : LogArea) (dev : Nat) (s : Sys P) : Label P → Option (Except Log.Panic (Sys P))
  | .log l =>
      if MayLog s l then
        (Log.step L.size s.log l).map fun r => r.map fun t =>
          { s with
            log := t
            code := update s.code (actor l) (codeAt L t.lh (t.pc (actor l))) }
      else none
  | .touch p i a =>
      if Runs (s.log.pc p) then
        (s.cache.touch dev p i a).map fun cache => .ok { s with cache := cache }
      else none
  | .modify p i data =>
      if (s.log.pc p).isInOp ∧ Writable L (s.cache.buf i).blockno then
        (s.cache.modify p i data).map fun cache => .ok { s with cache := cache }
      else none
  | .logWrite p i =>
      if (s.cache.hold i p).Has ∧ Writable L (s.cache.buf i).blockno then
        match Log.step L.size s.log (.logWrite p (s.cache.buf i).blockno) with
        | some (.ok t) =>
            (s.cache.logWrite p i (decide ((s.cache.buf i).blockno ∉ s.log.lh))).map fun cache =>
              .ok { s with log := t, cache := cache }
        | some (.error e) => some (.error e)
        | none => none
      else none
  | .run p i =>
      match s.log.pc p, s.code p with
      | .commit c, cmd :: rest =>
          (runCmd dev s p c i cmd).map fun t =>
            .ok { t with code := update t.code p rest }
      | _, _ => none

def Step (L : LogArea) (dev : Nat) (s : Sys P) (l : Label P) (t : Sys P) : Prop :=
  step L dev s l = some (.ok t)

/-- What `binit` and `initlog` leave: nobody in the log layer or the cache, the cached blocks as on
the disk, an erased log header. -/
structure Boot (L : LogArea) (dev : Nat) (s : Sys P) : Prop where
  log : s.log = LogState.init P
  free : ∀ i, (s.cache.buf i).refcnt = 0 ∧ s.cache.pins i = 0 ∧ ∀ p, s.cache.hold i p = .none
  names : ∀ i j, (s.cache.buf i).dev = dev → (s.cache.buf j).dev = dev →
    (s.cache.buf i).blockno = (s.cache.buf j).blockno → i = j
  data : ∀ i, (s.cache.buf i).dev = dev → (s.cache.buf i).valid = true →
    (s.cache.buf i).data = s.cache.disk (s.cache.buf i).blockno
  history : s.cache.latest = s.cache.disk ∧ s.cache.committed = s.cache.disk
  header : readHead (s.cache.disk L.start) = []

/-- All that a step can do. -/
inductive Does (L : LogArea) (dev : Nat) (s : Sys P) : Label P → Sys P → Prop
  | log {a u} (may : MayLog s a) (step : Log.Step L.size s.log a u) : Does L dev s (.log a) { s with
      log := u, code := update s.code (actor a) (codeAt L u.lh (u.pc (actor a))) }
  | touch {p i a c} (runs : Runs (s.log.pc p)) (touch : s.cache.touch dev p i a = some c) :
      Does L dev s (.touch p i a) { s with cache := c }
  | modify {p i d} (inOp : (s.log.pc p).isInOp = true) (has : (s.cache.hold i p).Has) :
      Does L dev s (.modify p i d) { s with
        cache := s.cache.put i { s.cache.buf i with data := d } p .dirty }
  | logWrite {p i u c} (has : (s.cache.hold i p).Has) (home : Writable L (s.cache.buf i).blockno)
      (step : Log.Step L.size s.log (.logWrite p (s.cache.buf i).blockno) u)
      (write : s.cache.logWrite p i (decide ((s.cache.buf i).blockno ∉ s.log.lh)) = some c) :
      Does L dev s (.logWrite p i) { s with log := u, cache := c }
  | run {p i c cmd rest u} (pc : s.log.pc p = .commit c) (code : s.code p = cmd :: rest)
      (run : runCmd dev s p c i cmd = some u) :
      Does L dev s (.run p i) { u with code := update u.code p rest }

theorem step_cases {L : LogArea} {dev : Nat} {s t : Sys P} {l : Label P} (hs : Step L dev s l t) :
    Does L dev s l t := by
  unfold Step at hs
  cases l with
  | log a =>
    simp only [step] at hs
    split_ifs at hs with hm
    cases hl : Log.step L.size s.log a with
    | none => simp [hl] at hs
    | some r =>
      cases r with
      | error e => simp [hl, Except.map] at hs
      | ok u =>
        simp only [hl, map_some, Except.map, some.injEq, Except.ok.injEq] at hs
        exact hs ▸ .log hm hl
  | touch p i a =>
    simp only [step] at hs
    split_ifs at hs with hr
    obtain ⟨c, hc, ht⟩ := Option.map_eq_some_iff.mp hs
    cases ht
    exact .touch hr hc
  | modify p i d =>
    simp only [step, Cache.modify] at hs
    split_ifs at hs with hg hh
    · simp only [map_some, some.injEq, Except.ok.injEq] at hs
      exact hs ▸ .modify hg.1 hh
    · simp at hs
  | logWrite p i =>
    simp only [step] at hs
    split_ifs at hs with hg
    split at hs
    · next u hu =>
      obtain ⟨c, hc, ht⟩ := Option.map_eq_some_iff.mp hs
      cases ht
      exact .logWrite hg.1 hg.2 hu hc
    · simp at hs
    · simp at hs
  | run p i =>
    simp only [step] at hs
    split at hs
    · next c cmd rest hp hc =>
      obtain ⟨u, hu, ht⟩ := Option.map_eq_some_iff.mp hs
      cases ht
      exact .run hp hc hu
    · simp at hs

end Xv6.Cached
