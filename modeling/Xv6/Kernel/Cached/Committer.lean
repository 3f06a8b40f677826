import Xv6.Kernel.Cached.Machine

namespace Xv6.Cached

open Bio Log Transition Function List Option

def wrote (code : List Cmd) : Bool := code.all fun
  | .bwrite _ => false
  | _ => true

def unpinned (code : List Cmd) : Bool := code.all fun
  | .bunpin _ => false
  | _ => true

/-- What the committer has to do with the buffer in a register, read off the code ahead. -/
def phase : List Cmd → Reg → Hold
  | [], _ => .none
  | .touch r a :: cs, x => if x = r then a.pre else phase cs x
  | .memmove d _ :: cs, x => if x = d then .held else phase cs x
  | .putHead r :: cs, x => if x = r then .held else phase cs x
  | .bwrite r :: cs, x => if x = r then .dirty else phase cs x
  | .bunpin _ :: cs, x => phase cs x

/-- A command leaves its registers as the code after it expects them. -/
def Fits : Cmd → List Cmd → Prop
  | .touch r a, cs => phase cs r = a.post
  | .memmove d r, cs => phase cs d = .dirty ∧ phase cs r = .held ∧ d ≠ r
  | .putHead r, cs => phase cs r = .dirty
  | .bwrite r, cs => phase cs r = .held ∧ wrote cs = true ∧
      phase cs .log ≠ .dirty ∧ phase cs .home ≠ .dirty
  | .bunpin r, cs => phase cs r = .held ∧ wrote cs = true ∧ unpinned cs = true

def Ok : List Cmd → Prop
  | [] => True
  | cmd :: cs => Fits cmd cs ∧ Ok cs

theorem Ok.suffix {as bs : List Cmd} (h : Ok bs) (hs : as <:+ bs) : Ok as := by
  obtain ⟨ts, rfl⟩ := hs
  induction ts with
  | nil => exact h
  | cons t ts ih => exact ih h.2

variable {r d : Reg} {b : Nat}

section Scripts

variable {L : LogArea} {lh : List Nat} {c : Stage}

theorem script_ok : Ok (script L lh c) := by
  cases c with
  | writeLog tail =>
    cases h : lh[tail]? <;>
      simp [script, h, writeLogBody, bread, brelse, Ok, Fits, phase, wrote, Cache.Touch.pre,
        Cache.Touch.post]
  | install tail =>
    cases h : lh[tail]? <;>
      simp [script, h, installBody, bread, brelse, Ok, Fits, phase, wrote, unpinned,
        Cache.Touch.pre, Cache.Touch.post]
  | writeHead | eraseHead =>
    simp [script, writeHeadBody, bread, brelse, Ok, Fits, phase, wrote, Cache.Touch.pre,
      Cache.Touch.post]
  | start | clear | done => simp [script, Ok]

theorem script_phase (r : Reg) : phase (script L lh c) r = .none := by
  cases c with
  | writeLog tail =>
    cases h : lh[tail]? <;> cases r <;>
      simp [script, h, writeLogBody, bread, phase, Cache.Touch.pre]
  | install tail =>
    cases h : lh[tail]? <;> cases r <;>
      simp [script, h, installBody, bread, phase, Cache.Touch.pre]
  | writeHead | eraseHead =>
    cases r <;> simp [script, writeHeadBody, bread, brelse, phase, Cache.Touch.pre]
  | start | clear | done => simp [script, phase]

/-- The block a register is for. -/
def block (L : LogArea) (lh : List Nat) : Stage → Reg → Option Nat
  | .writeLog tail, .log | .install tail, .log => some (L.start + tail + 1)
  | .writeLog tail, .home | .install tail, .home => lh[tail]?
  | .writeHead, .log | .eraseHead, .log => some L.start
  | _, _ => none

theorem script_mem {cmd : Cmd} (h : cmd ∈ script L lh c) :
    (∃ tail b, c = .writeLog tail ∧ lh[tail]? = some b ∧ cmd ∈ writeLogBody L tail b) ∨
    (∃ tail b, c = .install tail ∧ lh[tail]? = some b ∧ cmd ∈ installBody L tail b) ∨
    (c = .writeHead ∨ c = .eraseHead) ∧ cmd ∈ writeHeadBody L := by
  cases c with
  | writeLog tail =>
    cases hb : lh[tail]? with
    | none => simp [script, hb] at h
    | some b => exact .inl ⟨tail, b, rfl, hb, by simpa [script, hb] using h⟩
  | install tail =>
    cases hb : lh[tail]? with
    | none => simp [script, hb] at h
    | some b => exact .inr (.inl ⟨tail, b, rfl, hb, by simpa [script, hb] using h⟩)
  | writeHead => exact .inr (.inr ⟨.inl rfl, h⟩)
  | eraseHead => exact .inr (.inr ⟨.inr rfl, h⟩)
  | start | clear | done => simp [script] at h

theorem bget_mem (h : .touch r (.bget b) ∈ script L lh c) : block L lh c r = some b := by
  rcases script_mem h with ⟨tail, x, rfl, hb, hm⟩ | ⟨tail, x, rfl, hb, hm⟩ | ⟨hc, hm⟩ <;>
    simp [writeLogBody, installBody, writeHeadBody, bread, brelse] at hm
  · rcases hm with ⟨rfl, rfl⟩ | ⟨rfl, rfl⟩ <;> simp [block, hb]
  · rcases hm with ⟨rfl, rfl⟩ | ⟨rfl, rfl⟩ <;> simp [block, hb]
  · obtain ⟨rfl, rfl⟩ := hm
    rcases hc with rfl | rfl <;> rfl

theorem memmove_mem (h : .memmove d r ∈ script L lh c) :
    (∃ tail b, c = .writeLog tail ∧ lh[tail]? = some b ∧ d = .log ∧ r = .home) ∨
    (∃ tail b, c = .install tail ∧ lh[tail]? = some b ∧ d = .home ∧ r = .log) := by
  rcases script_mem h with ⟨tail, b, rfl, hb, hm⟩ | ⟨tail, b, rfl, hb, hm⟩ | ⟨_, hm⟩ <;>
    simp [writeLogBody, installBody, writeHeadBody, bread, brelse] at hm
  · exact .inl ⟨tail, b, rfl, hb, hm⟩
  · exact .inr ⟨tail, b, rfl, hb, hm⟩

theorem putHead_mem (h : .putHead r ∈ script L lh c) :
    (c = .writeHead ∨ c = .eraseHead) ∧ r = .log := by
  rcases script_mem h with ⟨tail, b, rfl, hb, hm⟩ | ⟨tail, b, rfl, hb, hm⟩ | ⟨hc, hm⟩ <;>
    simp [writeLogBody, installBody, writeHeadBody, bread, brelse] at hm
  exact ⟨hc, hm⟩

theorem bwrite_mem (h : .bwrite r ∈ script L lh c) :
    (∃ tail b, c = .writeLog tail ∧ lh[tail]? = some b ∧ r = .log) ∨
    (∃ tail b, c = .install tail ∧ lh[tail]? = some b ∧ r = .home) ∨
    (c = .writeHead ∧ r = .log) ∨ (c = .eraseHead ∧ r = .log) := by
  rcases script_mem h with ⟨tail, b, rfl, hb, hm⟩ | ⟨tail, b, rfl, hb, hm⟩ | ⟨rfl | rfl, hm⟩ <;>
    simp [writeLogBody, installBody, writeHeadBody, bread, brelse] at hm
  · exact .inl ⟨tail, b, rfl, hb, hm⟩
  · exact .inr (.inl ⟨tail, b, rfl, hb, hm⟩)
  · exact .inr (.inr (.inl ⟨rfl, hm⟩))
  · exact .inr (.inr (.inr ⟨rfl, hm⟩))

theorem bunpin_mem (h : .bunpin r ∈ script L lh c) :
    ∃ tail b, c = .install tail ∧ lh[tail]? = some b ∧ r = .home := by
  rcases script_mem h with ⟨tail, b, rfl, hb, hm⟩ | ⟨tail, b, rfl, hb, hm⟩ | ⟨_, hm⟩ <;>
    simp [writeLogBody, installBody, writeHeadBody, bread, brelse] at hm
  exact ⟨tail, b, rfl, hb, hm⟩

end Scripts

/-- The first `k` log blocks have been written. -/
def LogDone (code : List Cmd) : Stage → Nat → Prop
  | .start, _ => False
  | .writeLog tail, k => k < tail ∨ (k = tail ∧ wrote code = true)
  | _, _ => True

def HeadDone (code : List Cmd) : Stage → Prop
  | .writeHead => wrote code = true
  | .install _ | .clear => True
  | .eraseHead => wrote code = false
  | _ => False

def Unpinned (code : List Cmd) : Stage → Nat → Prop
  | .install tail, k => k < tail ∨ (k = tail ∧ unpinned code = true)
  | .clear, _ | .eraseHead, _ | .done, _ => True
  | _, _ => False

variable {P : Type}

/-- What the committer's dirty buffer holds. -/
def want (L : LogArea) (lh : List Nat) (x : Cache P) : Stage → Block
  | .writeLog tail | .install tail => x.latest (lh.getD tail 0)
  | _ => putHead (lh.map UInt32.ofNat) (x.disk L.start)

/-- The log on the disk holds the blocks `hs` with their latest contents. -/
structure OnDisk (L : LogArea) (x : Cache P) (hs : List Nat) : Prop where
  head : readHead (x.disk L.start) = hs.map UInt32.ofNat
  room : hs.length ≤ L.size - 1 ∧ hs.length ≤ LOGSIZE
  home : ∀ b ∈ hs, Writable L b
  logged : ∀ k b, hs[k]? = some b → x.disk (L.start + k + 1) = x.latest b

/-- The committing process `p` at stage `c` with `code` left to run: its buffers. -/
structure Registers (L : LogArea) (dev : Nat) (lh : List Nat) (x : Cache P) (p : P) (c : Stage)
    (code : List Cmd) (reg : Reg → Fin NBUF) : Prop where
  suffix : code <:+ script L lh c
  live : ∀ r, phase code r ≠ .none → x.hold (reg r) p = phase code r
  only : ∀ i, x.hold i p ≠ .none → ∃ r, phase code r ≠ .none ∧ i = reg r
  distinct : ∀ r r', phase code r ≠ .none → phase code r' ≠ .none → reg r = reg r' → r = r'
  names : ∀ r b, block L lh c r = some b → phase code r ≠ .none →
    (x.buf (reg r)).dev = dev ∧ (x.buf (reg r)).blockno = b
  dirty : ∀ i, x.hold i p = .dirty → (x.buf i).data = want L lh x c

/-- How far a commit at stage `c` with `code` left to run has got. -/
structure Progress (L : LogArea) (dev : Nat) (lh : List Nat) (x : Cache P) (c : Stage)
    (code : List Cmd) : Prop where
  nonempty : (∃ tail, c = .writeLog tail ∨ c = .install tail) ∨ c = .writeHead ∨ c = .clear →
    lh ≠ []
  logged : ∀ k b, lh[k]? = some b → LogDone code c k → x.disk (L.start + k + 1) = x.latest b
  before : ¬ HeadDone code c → readHead (x.disk L.start) = [] ∧
    ∀ b, L.Home b → x.disk b = x.committed b
  after : HeadDone code c → (∀ b, L.Home b → x.committed b = x.latest b) ∧
    ∃ hs, OnDisk L x hs ∧ (c ≠ .eraseHead → hs = lh)
  installed : ∀ tail b, c = .install tail → wrote code = true → lh[tail]? = some b →
    x.disk b = x.latest b
  pinned : ∀ k b, lh[k]? = some b → ¬ Unpinned code c k →
    ∃ i, (x.buf i).dev = dev ∧ (x.buf i).blockno = b ∧ x.pins i ≠ 0
  rest : ∀ i, x.pins i ≠ 0 → ∃ k, lh[k]? = some (x.buf i).blockno ∧ ¬ Unpinned code c k

section Steps

variable {L : LogArea} {dev : Nat} {lh : List Nat} {x x' : Cache P} {p q : P} {c : Stage}
  {code rest : List Cmd} {reg : Reg → Fin NBUF} {cmd : Cmd}

theorem Registers.next (h : Registers L dev lh x p c (cmd :: rest) reg) :
    cmd ∈ script L lh c ∧ rest <:+ script L lh c ∧ Fits cmd rest := by
  have hs := h.suffix
  exact ⟨hs.subset mem_cons_self, (suffix_cons cmd rest).trans hs, (script_ok.suffix hs).1⟩

theorem want_congr (hd : x'.disk = x.disk) (hl : x'.latest = x.latest) :
    want L lh x' c = want L lh x c := by
  cases c <;> simp [want, hd, hl]

theorem OnDisk.congr {hs : List Nat} (h : OnDisk L x hs) (hd : x'.disk = x.disk)
    (hl : x'.latest = x.latest) : OnDisk L x' hs := by
  refine ⟨?_, h.room, h.home, ?_⟩
  · rw [hd]
    exact h.head
  · intro k b hb
    rw [hd, hl]
    exact h.logged k b hb

variable {code' : List Cmd}

theorem progress_congr (hw : wrote code' = wrote code) (hu : unpinned code' = unpinned code) :
    LogDone code' c = LogDone code c ∧ HeadDone code' c = HeadDone code c ∧
      Unpinned code' c = Unpinned code c := by
  refine ⟨?_, ?_, ?_⟩
  · funext k
    cases c <;> simp [LogDone, hw]
  · cases c <;> simp [HeadDone, hw]
  · funext k
    cases c <;> simp [Unpinned, hu]

section

variable [Fintype P] (h : Progress L dev lh x c code) (hx : Coherent L dev lh x)
include h hx

theorem Progress.congr (hw : wrote code' = wrote code)
    (hu : unpinned code' = unpinned code) (hdisk : x'.disk = x.disk)
    (hlatest : x'.latest = x.latest) (hcommitted : x'.committed = x.committed)
    (hpins : x'.pins = x.pins)
    (hkeeps : ∀ i, (x.buf i).refcnt ≠ 0 → (x'.buf i).dev = (x.buf i).dev ∧
      (x'.buf i).blockno = (x.buf i).blockno) :
    Progress L dev lh x' c code' := by
  obtain ⟨hp1, hp2, hp3⟩ := progress_congr (c := c) hw hu
  refine ⟨h.nonempty, ?_, ?_, ?_, ?_, ?_, ?_⟩
  · rw [hp1, hdisk, hlatest]
    exact h.logged
  · rw [hp2, hdisk, hcommitted]
    exact h.before
  · rw [hp2, hcommitted, hlatest]
    intro hd
    obtain ⟨h1, hs, h2, h3⟩ := h.after hd
    exact ⟨h1, hs, h2.congr hdisk hlatest, h3⟩
  · rw [hw, hdisk, hlatest]
    exact h.installed
  · rw [hp3]
    intro k b hb hk
    obtain ⟨i, h1, h2, h3⟩ := h.pinned k b hb hk
    have hi := hkeeps i (hx.pinned_refcnt h3)
    exact ⟨i, hi.1.trans h1, hi.2.trans h2, by rwa [hpins]⟩
  · rw [hp3, hpins]
    intro i hi
    rw [(hkeeps i (hx.pinned_refcnt hi)).2]
    exact h.rest i hi

theorem Progress.quiet (hq : Quiet q x x') (hw : wrote code' = wrote code)
    (hu : unpinned code' = unpinned code) : Progress L dev lh x' c code' :=
  h.congr hx hw hu hq.disk hq.latest hq.committed hq.pins
    fun i hi => ⟨(hq.keeps i hi).1, (hq.keeps i hi).2.1⟩

end

theorem Registers.quiet [Fintype P] (h : Registers L dev lh x p c code reg)
    (hx : Coherent L dev lh x) (hq : Quiet q x x') (hne : p ≠ q) :
    Registers L dev lh x' p c code reg := by
  have hhold (i : Fin NBUF) : x'.hold i p = x.hold i p := hq.hold i p hne
  refine ⟨h.suffix, ?_, ?_, h.distinct, ?_, ?_⟩
  · intro r hr
    rw [hhold]
    exact h.live r hr
  · intro i hi
    rw [hhold] at hi
    exact h.only i hi
  · intro r b hb hr
    have hheld : x.hold (reg r) p ≠ .none := by rwa [h.live r hr]
    have hk := hq.keeps (reg r) (hx.held_refcnt hheld)
    rw [hk.1, hk.2.1]
    exact h.names r b hb hr
  · intro i hi
    rw [hhold] at hi
    rw [hq.locked i p hne (hi ▸ Or.inr (Or.inr rfl)), want_congr hq.disk hq.latest]
    exact h.dirty i hi

theorem touch_registers [DecidableEq P] [Fintype P] {a : Cache.Touch} {i : Fin NBUF}
    (h : Registers L dev lh x p c (.touch r a :: rest) reg) (hx : Coherent L dev lh x)
    (hi : (∀ b, a ≠ .bget b) → i = reg r) (hs : x.touch dev p i a = some x') :
    Registers L dev lh x' p c rest (update reg r i) := by
  obtain ⟨_, hq, hpre, hpost, hname, hother⟩ := touch_spec hx hs
  have hfit : phase rest r = a.post := h.next.2.2
  have hself : phase (.touch r a :: rest) r = a.pre := by simp [phase]
  have hphase {y : Reg} (hy : y ≠ r) : phase (.touch r a :: rest) y = phase rest y := by
    simp [phase, hy]
  have hreg {y : Reg} (hy : y ≠ r) : update reg r i y = reg y := update_of_ne hy _ _
  -- the other register names another buffer
  have hne {y : Reg} (hy : y ≠ r) (hl : phase rest y ≠ .none) : reg y ≠ i := by
    rintro rfl
    have hyl : phase (.touch r a :: rest) y ≠ .none := by rwa [hphase hy]
    have hhold := h.live y hyl
    rw [hpre] at hhold
    by_cases hb : ∃ b, a = .bget b
    · obtain ⟨b, rfl⟩ := hb
      exact hyl (hhold.symm.trans rfl)
    · have hri : reg y = reg r := hi (fun b he => hb ⟨b, he⟩)
      refine hy (h.distinct y r hyl ?_ hri)
      rw [hself, hhold]
      exact hyl
  refine ⟨h.next.2.1, ?_, ?_, ?_, ?_, ?_⟩
  · intro y hy
    by_cases hyr : y = r
    · subst hyr
      rw [update_self, hpost, hfit]
    · rw [hreg hyr, (hother _ (hne hyr hy)).2, h.live y (by rwa [hphase hyr]), hphase hyr]
  · intro j hj
    by_cases hji : j = i
    · subst hji
      refine ⟨r, ?_, by rw [update_self]⟩
      rwa [hfit, ← hpost]
    rw [(hother j hji).2] at hj
    obtain ⟨y, hy, rfl⟩ := h.only j hj
    have hyr : y ≠ r := by
      rintro rfl
      by_cases hb : ∃ b, a = .bget b
      · obtain ⟨b, rfl⟩ := hb
        exact hy hself
      · exact hji (hi (fun b he => hb ⟨b, he⟩)).symm
    exact ⟨y, by rwa [← hphase hyr], (hreg hyr).symm⟩
  · intro y z hy hz he
    by_cases hyr : y = r <;> by_cases hzr : z = r
    · rw [hyr, hzr]
    · subst hyr
      rw [update_self, hreg hzr] at he
      exact absurd he.symm (hne hzr hz)
    · subst hzr
      rw [update_self, hreg hyr] at he
      exact absurd he (hne hyr hy)
    · rw [hreg hyr, hreg hzr] at he
      exact h.distinct y z (by rwa [hphase hyr]) (by rwa [hphase hzr]) he
  · intro y b hb hy
    by_cases hyr : y = r
    · subst hyr
      rw [update_self]
      by_cases hg : ∃ b', a = .bget b'
      · obtain ⟨b', rfl⟩ := hg
        have hbb := bget_mem h.next.1
        rw [hb] at hbb
        cases hbb
        exact hname b rfl
      have hir := hi (fun b he => hg ⟨b, he⟩)
      have hpn : a.pre ≠ .none := by
        cases a with
        | bget b' => exact absurd ⟨b', rfl⟩ hg
        | _ => simp [Cache.Touch.pre]
      have hk := hq.keeps i (hx.held_refcnt (by rwa [hpre]))
      rw [hk.1, hk.2.1, hir]
      exact h.names y b hb (by rwa [hself])
    · rw [hreg hyr, (hother _ (hne hyr hy)).1]
      exact h.names y b hb (by rwa [hphase hyr])
  · intro j hj
    have hji : j ≠ i := by
      rintro rfl
      rw [hpost] at hj
      cases a <;> simp [Cache.Touch.post] at hj
    rw [(hother j hji).2] at hj
    rw [(hother j hji).1, want_congr hq.disk hq.latest]
    exact h.dirty j hj

theorem Registers.put [DecidableEq P] {k : Hold} (h : Registers L dev lh x p c (cmd :: rest) reg)
    (hd : phase (cmd :: rest) d ≠ .none) (hk : phase rest d = k) (hkn : k ≠ .none)
    (hphase : ∀ y, y ≠ d → phase (cmd :: rest) y = phase rest y)
    (hhold : x'.hold = update x.hold (reg d) (update (x.hold (reg d)) p k))
    (hnames : ∀ j, (x'.buf j).dev = (x.buf j).dev ∧ (x'.buf j).blockno = (x.buf j).blockno)
    (hdirty : ∀ j, x'.hold j p = .dirty → (x'.buf j).data = want L lh x' c) :
    Registers L dev lh x' p c rest reg := by
  have hlive {y : Reg} (hy : phase rest y ≠ .none) : phase (cmd :: rest) y ≠ .none := by
    by_cases hyd : y = d
    · rwa [hyd]
    · rwa [hphase y hyd]
  have hother {j : Fin NBUF} (hj : j ≠ reg d) : x'.hold j = x.hold j := by
    rw [hhold, update_of_ne hj]
  refine ⟨h.next.2.1, ?_, ?_, ?_, ?_, hdirty⟩
  · intro y hy
    by_cases hyd : y = d
    · rw [hyd, hk, hhold, update_self, update_self]
    · have hne : reg y ≠ reg d := fun he => hyd (h.distinct y d (hlive hy) hd he)
      rw [hother hne, h.live y (hlive hy), hphase y hyd]
  · intro j hj
    by_cases hjd : j = reg d
    · exact ⟨d, by rwa [hk], hjd⟩
    · rw [hother hjd] at hj
      obtain ⟨y, hy, rfl⟩ := h.only j hj
      have hyd : y ≠ d := fun he => hjd (by rw [he])
      exact ⟨y, by rwa [← hphase y hyd], rfl⟩
  · intro y z hy hz
    exact h.distinct y z (hlive hy) (hlive hz)
  · intro y b hb hy
    rw [(hnames _).1, (hnames _).2]
    exact h.names y b hb (hlive hy)

theorem modify_registers [DecidableEq P] {v : Block}
    (h : Registers L dev lh x p c (cmd :: rest) reg)
    (hd : phase (cmd :: rest) d = .held) (hd' : phase rest d = .dirty)
    (hphase : ∀ y, y ≠ d → phase (cmd :: rest) y = phase rest y) (hv : v = want L lh x c) :
    Registers L dev lh (x.put (reg d) { x.buf (reg d) with data := v } p .dirty) p c rest reg := by
  refine h.put (by simp [hd]) hd' (by simp) hphase rfl (put_names x _ _ p _ rfl rfl) ?_
  · intro j hj
    by_cases hjd : j = reg d
    · subst hjd
      have hwant : want L lh (x.put (reg d) { x.buf (reg d) with data := v } p .dirty) c =
          want L lh x c := want_congr rfl rfl
      rw [hwant]
      simpa [Cache.put] using hv
    · rw [(put_of_ne x _ _ p _ hjd).2] at hj
      rw [(put_of_ne x _ _ p _ hjd).1]
      exact h.dirty j hj

theorem Coherent.read [Fintype P] (hx : Coherent L dev lh x) {i : Fin NBUF}
    (hp : x.hold i p = .held) : (x.buf i).data = x.content L (x.buf i).blockno := by
  have hhas : (x.hold i p).Has := Or.inl hp
  refine hx.data i (hx.named i p hhas.locks.ne_none) (hx.filled i p hhas) ?_
  intro q
  by_cases hq : q = p
  · simp [hq, hp]
  · exact hx.not_dirty hhas.locks q hq

variable {k : Nat}

theorem not_home_log (hk : k < L.size) : ¬ L.Home (L.start + k) := by
  rintro (h | h) <;> omega

theorem lt_of_getElem? (h : lh[k]? = some b) : k < lh.length := by
  obtain ⟨hk, _⟩ := List.getElem?_eq_some_iff.mp h
  exact hk

theorem want_tail {tail : Nat} (hb : lh[tail]? = some b) :
    want L lh x (.writeLog tail) = x.latest b ∧ want L lh x (.install tail) = x.latest b := by
  simp [want, getD_eq_getElem?_getD, hb]

theorem want_head : want L lh x .writeHead = putHead (lh.map UInt32.ofNat) (x.disk L.start) ∧
    want L lh x .eraseHead = putHead (lh.map UInt32.ofNat) (x.disk L.start) := ⟨rfl, rfl⟩

theorem memmove_registers [DecidableEq P] [Fintype P]
    (h : Registers L dev lh x p c (.memmove d r :: rest) reg)
    (hg : Progress L dev lh x c (.memmove d r :: rest)) (hx : Coherent L dev lh x)
    (hhome : ∀ b ∈ lh, Writable L b) (hroom : lh.length ≤ L.size - 1) :
    Registers L dev lh (x.put (reg d) { x.buf (reg d) with data := (x.buf (reg r)).data } p .dirty)
      p c rest reg := by
  obtain ⟨hmem, _, hfd, hfr, hdr⟩ := h.next
  have hrd : phase (.memmove d r :: rest) r = .held := by
    simp only [phase, if_neg hdr.symm]
    exact hfr
  have hread := hx.read ((h.live r (by simp [hrd])).trans hrd)
  have hsize := L.size_pos
  refine modify_registers h ?_ hfd ?_ ?_
  · simp [phase]
  · intro y hy
    simp [phase, hy]
  rw [hread]
  rcases memmove_mem hmem with ⟨tail, b, rfl, hb, rfl, rfl⟩ | ⟨tail, b, rfl, hb, rfl, rfl⟩
  · rw [(h.names .home b hb (by simp [hrd])).2, Cache.content,
      if_pos (hhome b (mem_of_getElem? hb)).1, (want_tail hb).1]
  · have hk := lt_of_getElem? hb
    rw [(h.names .log _ rfl (by simp [hrd])).2, Cache.content,
      if_neg (by rw [Nat.add_assoc]; exact not_home_log (by omega)),
      hg.logged tail b hb trivial, (want_tail hb).2]

theorem putHead_registers [DecidableEq P] [Fintype P]
    (h : Registers L dev lh x p c (.putHead r :: rest) reg) (hx : Coherent L dev lh x) :
    Registers L dev lh (x.put (reg r)
      { x.buf (reg r) with data := putHead (lh.map UInt32.ofNat) (x.buf (reg r)).data } p .dirty)
      p c rest reg := by
  obtain ⟨hmem, _, hfit⟩ := h.next
  have hr : phase (.putHead r :: rest) r = .held := by simp [phase]
  have hread := hx.read ((h.live r (by simp [hr])).trans hr)
  have hstart : ¬ L.Home L.start := not_home_log (k := 0) L.size_pos
  refine modify_registers h hr hfit ?_ ?_
  · intro y hy
    simp [phase, hy]
  · obtain ⟨hc, rfl⟩ := putHead_mem hmem
    have hb : block L lh c .log = some L.start := by rcases hc with rfl | rfl <;> rfl
    rw [hread, (h.names .log _ hb (by simp [hr])).2, Cache.content, if_neg hstart]
    rcases hc with rfl | rfl <;> rfl

theorem bwrite_registers [DecidableEq P] (h : Registers L dev lh x p c (.bwrite r :: rest) reg)
    (hhold : x'.hold = update x.hold (reg r) (update (x.hold (reg r)) p .held))
    (hbuf : x'.buf = x.buf) : Registers L dev lh x' p c rest reg := by
  obtain ⟨_, _, hheld, _, hlog, hhome⟩ := h.next
  have hphase (y : Reg) (hy : y ≠ r) : phase (.bwrite r :: rest) y = phase rest y := by
    simp [phase, hy]
  refine h.put (by simp [phase]) hheld (by simp) hphase hhold (by simp [hbuf]) ?_
  -- the buffer just written was the only dirty one
  intro j hj
  have hjr : j ≠ reg r := by
    rintro rfl
    simp [hhold] at hj
  rw [hhold, update_of_ne hjr] at hj
  obtain ⟨y, hy, rfl⟩ := h.only j (by simp [hj])
  have hyr : y ≠ r := fun he => hjr (by rw [he])
  rw [h.live y hy, hphase y hyr] at hj
  cases y with
  | log => exact absurd hj hlog
  | home => exact absurd hj hhome

theorem home_ne_log (hb : L.Home b) (hk : k < L.size) : b ≠ L.start + k := by
  rintro rfl
  exact not_home_log hk hb

theorem update_log_home {d : Disk} (hk : k < L.size) (v : Block)
    (hb : L.Home b) : update d (L.start + k) v b = d b :=
  update_of_ne (home_ne_log hb hk) _ _

theorem bwrite_progress [Fintype P] (hg : Progress L dev lh x c (.bwrite r :: rest))
    (hx : Coherent L dev lh x) (hmem : .bwrite r ∈ script L lh c) (hw : wrote rest)
    (hu : unpinned rest = unpinned (.bwrite r :: rest)) (hhome : ∀ b ∈ lh, Writable L b)
    (hroom : lh.length ≤ L.size - 1 ∧ lh.length ≤ LOGSIZE) (herased : c = .eraseHead → lh = [])
    (hb : block L lh c r = some b) (hdisk : x'.disk = update x.disk b (want L lh x c))
    (hlatest : x'.latest = x.latest)
    (hcommitted : x'.committed = if c = .writeHead then x.latest else x.committed)
    (hpins : x'.pins = x.pins) (hbuf : x'.buf = x.buf) : Progress L dev lh x' c rest := by
  have hsize := L.size_pos
  have hnw : wrote (.bwrite r :: rest) = false := by simp [wrote]
  have hun : Unpinned rest c = Unpinned (.bwrite r :: rest) c := by
    funext k
    cases c <;> simp [Unpinned, hu]
  have hpin : (∀ k b, lh[k]? = some b → ¬ Unpinned rest c k →
      ∃ i, (x'.buf i).dev = dev ∧ (x'.buf i).blockno = b ∧ x'.pins i ≠ 0) ∧
      ∀ i, x'.pins i ≠ 0 → ∃ k, lh[k]? = some (x'.buf i).blockno ∧ ¬ Unpinned rest c k := by
    rw [hun, hbuf, hpins]
    exact ⟨hg.pinned, hg.rest⟩
  rcases bwrite_mem hmem with ⟨tail, b', rfl, hb', rfl⟩ | ⟨tail, b', rfl, hb', rfl⟩ | ⟨rfl, rfl⟩ |
    ⟨rfl, rfl⟩
  · -- a log block
    cases hb
    have hk := lt_of_getElem? hb'
    have htail : tail + 1 < L.size := by omega
    rw [(want_tail hb').1, Nat.add_assoc] at hdisk
    refine ⟨hg.nonempty, ?_, ?_, fun hd => hd.elim, by simp, hpin.1, hpin.2⟩
    · intro k y hy hdone
      rw [hlatest, hdisk, Nat.add_assoc]
      by_cases hkt : k = tail
      · subst hkt
        rw [hb'] at hy
        cases hy
        rw [update_self]
      · rw [update_of_ne (by omega), ← Nat.add_assoc]
        rcases hdone with hlt | ⟨rfl, _⟩
        · exact hg.logged k y hy (Or.inl hlt)
        · exact absurd rfl hkt
    · intro _
      obtain ⟨h1, h2⟩ := hg.before (fun hd => hd.elim)
      rw [hdisk, hcommitted, update_of_ne (by omega)]
      refine ⟨h1, ?_⟩
      intro y hy
      rw [update_log_home htail _ hy]
      exact h2 y hy
  · -- a home block
    have hbb : b = b' := by
      simp only [block, hb', some.injEq] at hb
      exact hb.symm
    subst hbb
    have hw := (hhome b (mem_of_getElem? hb')).1
    have hlog (k : Nat) (hk : k < L.size) : x'.disk (L.start + k) = x.disk (L.start + k) := by
      rw [hdisk, update_of_ne (home_ne_log hw hk).symm]
    rw [(want_tail hb').2] at hdisk
    refine ⟨hg.nonempty, ?_, fun hd => absurd trivial hd, ?_, ?_, hpin.1, hpin.2⟩
    · intro k y hy _
      have := lt_of_getElem? hy
      rw [hlatest, Nat.add_assoc, hlog _ (by omega), ← Nat.add_assoc]
      exact hg.logged k y hy trivial
    · intro _
      obtain ⟨h1, hs, h2, h3⟩ := hg.after trivial
      rw [hlatest, hcommitted]
      refine ⟨h1, hs, ⟨?_, h2.room, h2.home, ?_⟩, h3⟩
      · have h0 := hlog 0 hsize
        rw [Nat.add_zero] at h0
        rw [h0]
        exact h2.head
      · intro k y hy
        have := lt_of_getElem? hy
        have := h2.room.1
        rw [hlatest, Nat.add_assoc, hlog _ (by omega), ← Nat.add_assoc]
        exact h2.logged k y hy
    · intro tail' y ht _ hy
      cases ht
      rw [hb'] at hy
      cases hy
      rw [hdisk, hlatest, update_self]
  · -- the header of the transaction
    cases hb
    have hlog (k : Nat) : x'.disk (L.start + k + 1) = x.disk (L.start + k + 1) := by
      rw [hdisk, update_of_ne (by omega)]
    refine ⟨hg.nonempty, ?_, fun hd => absurd hw hd, ?_, by simp, hpin.1, hpin.2⟩
    · intro k y hy _
      rw [hlog, hlatest]
      exact hg.logged k y hy trivial
    intro _
    rw [hlatest, hcommitted]
    refine ⟨fun _ _ => rfl, lh, ⟨?_, hroom, hhome, ?_⟩, fun _ => rfl⟩
    · rw [hdisk, update_self, want_head.1, readHead_putHead]
      simpa using hroom.2
    · intro k y hy
      rw [hlog, hlatest]
      exact hg.logged k y hy trivial
  · -- the erased header
    cases hb
    have hl := herased rfl
    subst hl
    obtain ⟨h1, _⟩ := hg.after hnw
    refine ⟨hg.nonempty, by simp, ?_, ?_, by simp, hpin.1, hpin.2⟩
    · intro _
      constructor
      · rw [hdisk, update_self, want_head.2, readHead_putHead]
        · rfl
        · simp
      intro y hy
      have hstart := update_log_home (L := L) (d := x.disk) (k := 0) hsize
        (want L [] x .eraseHead) hy
      rw [Nat.add_zero] at hstart
      rw [hdisk, hcommitted, hstart, if_neg (by simp), h1 y hy]
      apply hx.clean y hy
      intro i _ _
      by_contra hp
      have := (hx.pinned i hp).2.2.2.2
      simp at this
    · intro hd
      exact absurd (hw.symm.trans hd) (by simp)

theorem bwrite_block (h : .bwrite r ∈ script L lh c) : ∃ b, block L lh c r = some b := by
  rcases bwrite_mem h with ⟨tail, b, rfl, hb, rfl⟩ | ⟨tail, b, rfl, hb, rfl⟩ | ⟨rfl, rfl⟩ | ⟨rfl, rfl⟩
  · exact ⟨_, rfl⟩
  · exact ⟨b, hb⟩
  all_goals exact ⟨_, rfl⟩

theorem want_home (h : .bwrite r ∈ script L lh c) (hb : block L lh c r = some b) (hh : L.Home b)
    (hroom : lh.length ≤ L.size - 1) : want L lh x c = x.latest b := by
  have hsize := L.size_pos
  rcases bwrite_mem h with ⟨tail, b', rfl, hb', rfl⟩ | ⟨tail, b', rfl, hb', rfl⟩ | ⟨rfl, rfl⟩ | ⟨rfl, rfl⟩
  · cases hb
    have := lt_of_getElem? hb'
    exact absurd rfl (home_ne_log hh (k := tail + 1) (by omega))
  · simp only [block, hb', some.injEq] at hb
    rw [(want_tail hb').2, hb]
  all_goals
    cases hb
    exact absurd rfl (home_ne_log hh (k := 0) hsize)

theorem Coherent.commitAll [Fintype P] (h : Coherent L dev lh x) : Coherent L dev lh x.commitAll :=
  ⟨h.names, h.refs, h.lock, h.named, h.filled, h.pinned, h.data, h.clean⟩

theorem bwrite_committing [DecidableEq P] [Fintype P] {y : Cache P}
    (h : Registers L dev lh x p c (.bwrite r :: rest) reg)
    (hg : Progress L dev lh x c (.bwrite r :: rest)) (hx : Coherent L dev lh x)
    (hhome : ∀ b ∈ lh, Writable L b) (hroom : lh.length ≤ L.size - 1 ∧ lh.length ≤ LOGSIZE)
    (herased : c = .eraseHead → lh = []) (hs : x.bwrite p (reg r) = some y)
    (hx' : x' = if c = .writeHead then y.commitAll else y) :
    Coherent L dev lh x' ∧ Registers L dev lh x' p c rest reg ∧ Progress L dev lh x' c rest := by
  obtain ⟨hmem, _, hheld, hw, _⟩ := h.next
  have hphase : phase (.bwrite r :: rest) r = .dirty := by simp [phase]
  have hdirty := (h.live r (by simp [hphase])).trans hphase
  have hhas : (x.hold (reg r) p).Has := Or.inr hdirty
  have hdata := h.dirty _ hdirty
  obtain ⟨b, hb⟩ := bwrite_block hmem
  have hname := (h.names r b hb (by simp [hphase])).2
  have hcoh : Coherent L dev lh y := by
    refine bwrite_coherent hx hhas ?_ hs
    intro hh
    rw [hname] at hh
    rw [hdata, hname]
    exact want_home hmem hb hh hroom.1
  simp only [Cache.bwrite, if_pos hhas, some.injEq] at hs
  have hfields : x'.hold = update x.hold (reg r) (update (x.hold (reg r)) p .held) ∧
      x'.buf = x.buf ∧ x'.disk = update x.disk b (want L lh x c) ∧ x'.latest = x.latest ∧
      x'.committed = (if c = .writeHead then x.latest else x.committed) ∧ x'.pins = x.pins := by
    rw [← hdata, ← hname, hx', ← hs]
    split_ifs <;> simp [Cache.commitAll, Cache.put]
  obtain ⟨h1, h2, h3, h4, h5, h6⟩ := hfields
  refine ⟨?_, bwrite_registers h h1 h2, bwrite_progress hg hx hmem hw ?_ hhome hroom herased hb h3 h4
    h5 h6 h2⟩
  · rw [hx']
    split_ifs
    · exact hcoh.commitAll
    · exact hcoh
  · simp [unpinned]

theorem bunpin_names [DecidableEq P] (x : Cache P) (p : P) (i j : Fin NBUF) :
    ((x.bunpin p i).buf j).dev = (x.buf j).dev ∧
      ((x.bunpin p i).buf j).blockno = (x.buf j).blockno :=
  put_names x i { x.buf i with refcnt := (x.buf i).refcnt - 1 } p (x.hold i p) rfl rfl j

theorem bunpin_registers [DecidableEq P] (h : Registers L dev lh x p c (.bunpin r :: rest) reg) :
    Registers L dev lh (x.bunpin p (reg r)) p c rest reg := by
  obtain ⟨_, _, hheld, _⟩ := h.next
  have hlive : phase (.bunpin r :: rest) r ≠ .none := by simp [phase, hheld]
  have hhold : x.hold (reg r) p = .held := (h.live r hlive).trans hheld
  refine h.put hlive hheld (by simp) (fun _ _ => rfl) ?_ (bunpin_names x p (reg r)) ?_
  · rw [← hhold]
    rfl
  intro j hj
  have hjr : j ≠ reg r := by
    rintro rfl
    simp [Cache.bunpin, Cache.put, hhold] at hj
  have hwant : want L lh (x.bunpin p (reg r)) c = want L lh x c := want_congr rfl rfl
  simp only [Cache.bunpin, (put_of_ne x _ _ p _ hjr).2] at hj
  rw [hwant]
  simp only [Cache.bunpin, (put_of_ne x _ _ p _ hjr).1]
  exact h.dirty j hj

theorem bunpin_progress [DecidableEq P] [Fintype P]
    (h : Registers L dev lh x p c (.bunpin r :: rest) reg)
    (hg : Progress L dev lh x c (.bunpin r :: rest)) (hx : Coherent L dev lh x) (hnd : lh.Nodup) :
    x.hold (reg r) p = .held ∧ x.pins (reg r) ≠ 0 ∧
      x.disk (x.buf (reg r)).blockno = x.latest (x.buf (reg r)).blockno ∧
      Progress L dev lh (x.bunpin p (reg r)) c rest := by
  obtain ⟨hmem, _, hheld, hw, hu⟩ := h.next
  obtain ⟨tail, b, rfl, hb, rfl⟩ := bunpin_mem hmem
  have hphase : phase (.bunpin .home :: rest) .home = .held := hheld
  have hlive : phase (.bunpin .home :: rest) .home ≠ .none := by simp [hphase]
  obtain ⟨hdev, hblk⟩ := h.names .home b hb hlive
  have hnu : unpinned (.bunpin .home :: rest) = false := by simp [unpinned]
  have hww : wrote (.bunpin .home :: rest) = true := by simpa [wrote] using hw
  obtain ⟨i, h1, h2, h3⟩ := hg.pinned tail b hb (by simp [Unpinned, hnu])
  have hi : i = reg .home := hx.names i _ h1 hdev (h2.trans hblk.symm)
  subst hi
  have hdisk : x.disk b = x.latest b := hg.installed tail b rfl hww hb
  have hnames := bunpin_names x p (reg .home)
  have hpins {j : Fin NBUF} (hj : j ≠ reg .home) : (x.bunpin p (reg .home)).pins j = x.pins j := by
    simp [Cache.bunpin, hj]
  have hself : (x.bunpin p (reg .home)).pins (reg .home) = 0 := by
    simp [Cache.bunpin, (hx.pinned _ h3).1]
  refine ⟨(h.live .home hlive).trans hphase, h3, by rw [hblk]; exact hdisk, ?_⟩
  refine ⟨hg.nonempty, hg.logged, fun hd => absurd trivial hd, ?_, ?_, ?_, ?_⟩
  · intro _
    obtain ⟨h4, hs, h5, h6⟩ := hg.after trivial
    exact ⟨h4, hs, h5.congr rfl rfl, h6⟩
  · intro tail' y ht _ hy
    exact hg.installed tail' y ht hww hy
  · intro k y hy hk
    have hkt : k ≠ tail := by
      rintro rfl
      exact hk (Or.inr ⟨rfl, hu⟩)
    have hk' : ¬ Unpinned (.bunpin .home :: rest) (.install tail) k := by
      rintro (hlt | ⟨rfl, _⟩)
      · exact hk (Or.inl hlt)
      · exact hkt rfl
    obtain ⟨j, h4, h5, h6⟩ := hg.pinned k y hy hk'
    have hj : j ≠ reg .home := by
      rintro rfl
      rw [hblk] at h5
      subst h5
      obtain ⟨_, e1⟩ := List.getElem?_eq_some_iff.mp hy
      obtain ⟨_, e2⟩ := List.getElem?_eq_some_iff.mp hb
      exact hkt (hnd.getElem_inj_iff.mp (e1.trans e2.symm))
    exact ⟨j, (hnames j).1.trans h4, (hnames j).2.trans h5, by rwa [hpins hj]⟩
  · intro j hj
    have hjh : j ≠ reg .home := by
      rintro rfl
      exact hj hself
    rw [hpins hjh] at hj
    obtain ⟨k, hk, hnk⟩ := hg.rest j hj
    refine ⟨k, by rwa [(hnames j).2], ?_⟩
    rintro (hlt | ⟨rfl, _⟩)
    · exact hnk (Or.inl hlt)
    · rw [hb] at hk
      cases hk
      exact hjh (hx.names j _ (hx.pinned j hj).2.1 hdev hblk.symm)

theorem script_left {tail : Nat} (hb : lh[tail]? = some b) :
    wrote (script L lh (.writeLog tail)) = false ∧ wrote (script L lh (.install tail)) = false ∧
      unpinned (script L lh (.install tail)) = false := by
  simp [script, hb, writeLogBody, installBody, bread, brelse, wrote, unpinned]

theorem script_head_left : wrote (script L lh .writeHead) = false ∧
    wrote (script L lh .eraseHead) = false := by
  simp [script, writeHeadBody, bread, brelse, wrote]

theorem Registers.start (hnone : ∀ i, x.hold i p = .none) :
    Registers L dev lh x p c (script L lh c) reg := by
  refine ⟨suffix_refl _, ?_, fun i hi => absurd (hnone i) hi, ?_, ?_, ?_⟩
  · exact fun r hr => absurd (script_phase r) hr
  · exact fun r _ hr => absurd (script_phase r) hr
  · exact fun r _ _ hr => absurd (script_phase r) hr
  · intro i hi
    rw [hnone i] at hi
    cases hi

theorem commitStep_progress [DecidableEq P] {l u : LogState P} (hs : Log.commitStep l p c = some u)
    (h : Progress L dev l.lh x c []) (herased : c = .eraseHead → l.lh = []) :
    ∃ d, u.pc = update l.pc p (.commit d) ∧ Progress L dev u.lh x d (script L u.lh d) ∧
      (u.lh = l.lh ∨ u.lh = [] ∧ ∀ i, x.pins i = 0) := by
  have hw : wrote [] = true := rfl
  have hu : unpinned [] = true := rfl
  cases c with
  | start =>
    simp only [Log.commitStep] at hs
    split_ifs at hs with hn
    · cases hs
      refine ⟨.writeLog 0, rfl, ?_, Or.inl rfl⟩
      refine ⟨fun _ => ne_nil_of_length_pos hn, ?_, h.before, fun hd => hd.elim, by simp, h.pinned,
        h.rest⟩
      rintro k b hb (hk | ⟨rfl, hk⟩)
      · omega
      · exact absurd hk (by simp [script_left hb])
    cases hs
    have hl : l.lh = [] := eq_nil_of_length_eq_zero (by omega)
    refine ⟨.done, rfl, ?_, Or.inl rfl⟩
    refine ⟨by simp, ?_, h.before, fun hd => hd.elim, by simp, ?_, ?_⟩
    · intro k b hb
      simp [LogState.setPc, hl] at hb
    · intro k b hb
      simp [LogState.setPc, hl] at hb
    · intro i hi
      obtain ⟨k, hk, _⟩ := h.rest i hi
      simp [hl] at hk
  | writeLog tail =>
    simp only [Log.commitStep] at hs
    have hne := h.nonempty (Or.inl ⟨tail, Or.inl rfl⟩)
    split_ifs at hs with hn
    · cases hs
      refine ⟨.writeLog (tail + 1), rfl, ?_, Or.inl rfl⟩
      refine ⟨fun _ => hne, ?_, h.before, fun hd => hd.elim, by simp, h.pinned, h.rest⟩
      rintro k b hb (hk | ⟨rfl, hk⟩)
      · apply h.logged k b hb
        by_cases hkt : k = tail
        · exact Or.inr ⟨hkt, hw⟩
        · exact Or.inl (by omega)
      · exact absurd hk (by simp [script_left hb])
    cases hs
    refine ⟨.writeHead, rfl, ?_, Or.inl rfl⟩
    refine ⟨fun _ => hne, ?_, fun _ => h.before id, ?_, by simp, h.pinned, h.rest⟩
    · intro k b hb _
      have := lt_of_getElem? hb
      exact h.logged k b hb (Or.inl (by simp only [LogState.setPc] at this; omega))
    · intro hd
      exact absurd (script_head_left.1.symm.trans hd) (by simp)
  | writeHead =>
    cases hs
    have hne := h.nonempty (Or.inr (Or.inl rfl))
    refine ⟨.install 0, rfl, ?_, Or.inl rfl⟩
    refine ⟨fun _ => hne, h.logged, fun hd => absurd trivial hd, ?_, ?_, ?_, ?_⟩
    · intro _
      obtain ⟨h1, hs, h2, h3⟩ := h.after hw
      exact ⟨h1, hs, h2, fun _ => h3 (by simp)⟩
    · intro tail b ht hk hb
      cases ht
      exact absurd hk (by simp [script_left hb])
    · exact fun k b hb _ => h.pinned k b hb id
    intro i hi
    obtain ⟨k, hk, _⟩ := h.rest i hi
    refine ⟨k, hk, ?_⟩
    rintro (hlt | ⟨rfl, hun⟩)
    · omega
    · exact absurd hun (by simp [LogState.setPc, script_left hk])
  | install tail =>
    simp only [Log.commitStep] at hs
    have hne := h.nonempty (Or.inl ⟨tail, Or.inr rfl⟩)
    obtain ⟨h1, hs', h2, h3⟩ := h.after trivial
    split_ifs at hs with hn
    · cases hs
      refine ⟨.install (tail + 1), rfl, ?_, Or.inl rfl⟩
      refine ⟨fun _ => hne, h.logged, fun hd => absurd trivial hd,
        fun _ => ⟨h1, hs', h2, fun _ => h3 (by simp)⟩, ?_, ?_, ?_⟩
      · intro tail' b ht hk hb
        cases ht
        exact absurd hk (by simp [script_left hb])
      · intro k b hb hk
        apply h.pinned k b hb
        rintro (hlt | ⟨rfl, _⟩)
        all_goals exact hk (Or.inl (by omega))
      intro i hi
      obtain ⟨k, hk, hnk⟩ := h.rest i hi
      refine ⟨k, hk, ?_⟩
      rintro (hlt | ⟨rfl, hun⟩)
      · apply hnk
        by_cases hkt : k = tail
        · exact Or.inr ⟨hkt, hu⟩
        · exact Or.inl (by omega)
      · exact absurd hun (by simp [LogState.setPc, script_left hk])
    · cases hs
      refine ⟨.clear, rfl, ?_, Or.inl rfl⟩
      refine ⟨fun _ => hne, h.logged, fun hd => absurd trivial hd,
        fun _ => ⟨h1, hs', h2, fun _ => h3 (by simp)⟩, by simp,
        fun _ _ _ hk => absurd trivial hk, ?_⟩
      intro i hi
      obtain ⟨k, hk, hnk⟩ := h.rest i hi
      have := lt_of_getElem? hk
      exact absurd (Or.inl (by omega)) hnk
  | clear =>
    cases hs
    have hpins (i : Fin NBUF) : x.pins i = 0 := by
      by_contra hi
      obtain ⟨_, _, hk⟩ := h.rest i hi
      exact hk trivial
    obtain ⟨h1, hs', h2, _⟩ := h.after trivial
    refine ⟨.eraseHead, rfl, ?_, Or.inr ⟨rfl, hpins⟩⟩
    refine ⟨by simp, ?_, fun hd => absurd script_head_left.2 hd,
      fun _ => ⟨h1, hs', h2, fun hc => absurd rfl hc⟩, by simp, ?_, fun i hi => absurd (hpins i) hi⟩
    all_goals
      intro k b hb
      simp [LogState.setPc] at hb
  | eraseHead =>
    cases hs
    have hl := herased rfl
    refine ⟨.done, rfl, ?_, Or.inl rfl⟩
    refine ⟨by simp, ?_, fun _ => h.before (by simp [HeadDone, hw]), fun hd => hd.elim, by simp,
      fun _ _ _ hk => absurd trivial hk, ?_⟩
    · intro k b hb
      simp [LogState.setPc, hl] at hb
    · intro i hi
      obtain ⟨_, _, hk⟩ := h.rest i hi
      exact absurd trivial hk
  | done => cases hs

end Steps

end Xv6.Cached
