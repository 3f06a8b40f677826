import Xv6.Kernel.Cached.Committer

namespace Xv6.Cached

open Bio Log Transition Function Option

variable {P : Type} [DecidableEq P] [Fintype P]

/-- The cache, the log and the disk at every moment between two steps. -/
structure Inv (L : LogArea) (dev : Nat) (s : Sys P) : Prop where
  log : Log.Inv s.log
  coherent : Coherent L dev s.log.lh s.cache
  home : ∀ b ∈ s.log.lh, Writable L b
  room : s.log.lh.length ≤ L.size - 1 ∧ s.log.lh.length ≤ LOGSIZE
  idle : (∀ p c, s.log.pc p ≠ .commit c) →
    (∀ b ∈ s.log.lh, ∃ i, (s.cache.buf i).dev = dev ∧ (s.cache.buf i).blockno = b ∧
      s.cache.pins i ≠ 0) ∧
    readHead (s.cache.disk L.start) = [] ∧ ∀ b, L.Home b → s.cache.disk b = s.cache.committed b
  registers : ∀ p c, s.log.pc p = .commit c →
    Registers L dev s.log.lh s.cache p c (s.code p) (s.reg p)
  progress : ∀ p c, s.log.pc p = .commit c → Progress L dev s.log.lh s.cache c (s.code p)

variable {p : P} {i : Fin NBUF} {x : Cache P}

section Steps

variable {L : LogArea} {dev : Nat} {s : Sys P}

omit [DecidableEq P] in
theorem boot_inv (h : Boot L dev s) : Inv L dev s := by
  have hlog := h.log
  have hlh : s.log.lh = [] := by rw [hlog]; rfl
  have hpc (p : P) (c : Stage) : s.log.pc p ≠ .commit c := by
    rw [hlog]
    simp [LogState.init]
  refine ⟨hlog ▸ Log.init_inv, ?_, by simp [hlh], by simp [hlh], ?_,
    fun p c hp => absurd hp (hpc p c), fun p c hp => absurd hp (hpc p c)⟩
  · constructor
    · exact h.names
    · intro i
      simp [h.free i, Hold.count]
    · intro i p q hp
      rw [(h.free i).2.2 p] at hp
      simp [Hold.Locks] at hp
    · exact fun i p hp => absurd ((h.free i).2.2 p) hp
    · intro i p hp
      rw [(h.free i).2.2 p] at hp
      simp [Hold.Has] at hp
    · exact fun i hi => absurd (h.free i).2.1 hi
    · intro i hd hv _
      rw [h.data i hd hv, Cache.content, h.history.1, ite_self]
    · intro b _ _
      rw [h.history.1]
  · intro _
    refine ⟨by simp [hlh], h.header, ?_⟩
    intro b _
    rw [h.history.2]

theorem touch_inv (h : Inv L dev s) {a : Cache.Touch} (hr : Runs (s.log.pc p))
    (hs : s.cache.touch dev p i a = some x) : Inv L dev { s with cache := x } := by
  obtain ⟨hx, hq, _⟩ := touch_spec h.coherent hs
  have hpc (q : P) (c : Stage) (hc : s.log.pc q = .commit c) : q ≠ p := by
    rintro rfl
    rw [hc] at hr
    simp [Runs, Pc.isInOp] at hr
  refine ⟨h.log, hx, h.home, h.room, ?_, ?_, ?_⟩
  · intro hno
    obtain ⟨h1, h2, h3⟩ := h.idle hno
    refine ⟨?_, by rwa [hq.disk], by rwa [hq.disk, hq.committed]⟩
    intro b hb
    obtain ⟨j, hj, hjb, hjp⟩ := h1 b hb
    have hk := hq.keeps j (h.coherent.pinned_refcnt hjp)
    exact ⟨j, hk.1.trans hj, hk.2.1.trans hjb, by rwa [hq.pins]⟩
  · intro q c hc
    exact (h.registers q c hc).quiet h.coherent hq (hpc q c hc)
  · intro q c hc
    exact (h.progress q c hc).quiet h.coherent hq rfl rfl

omit [DecidableEq P] in
theorem Inv.no_commit (h : Inv L dev s) (hp : (s.log.pc p).isInOp) (q : P)
    (c : Stage) : s.log.pc q ≠ .commit c := by
  intro hq
  have hcom : s.log.committing = true := h.log.committer.mpr ⟨q, c, hq⟩
  cases hw : s.log.pc p with
  | inOp w =>
    rw [h.log.not_committing hw] at hcom
    exact absurd hcom (by simp)
  | _ => simp [hw, Pc.isInOp] at hp

theorem modify_inv (h : Inv L dev s) {d : Block}
    (hp : (s.log.pc p).isInOp) (hi : (s.cache.hold i p).Has) :
    Inv L dev { s with cache := s.cache.put i { s.cache.buf i with data := d } p .dirty } := by
  have hno := h.no_commit hp
  refine ⟨h.log, modify_coherent h.coherent hi d, h.home, h.room, ?_,
    fun q c hq => absurd hq (hno q c), fun q c hq => absurd hq (hno q c)⟩
  intro _
  obtain ⟨h1, h2, h3⟩ := h.idle hno
  refine ⟨?_, h2, h3⟩
  intro b hb
  obtain ⟨j, hj, hjb, hjp⟩ := h1 b hb
  have hn := put_names s.cache i { s.cache.buf i with data := d } p .dirty rfl rfl j
  exact ⟨j, hn.1.trans hj, hn.2.trans hjb, hjp⟩

variable {u : LogState P}

omit [Fintype P] in
theorem logWrite_lh {size : Nat} {b : Nat} {l : LogState P}
    (hs : Log.Step size l (.logWrite p b) u) :
    (l.pc p).isInOp = true ∧ u.lh = absorb l.lh b ∧ l.lh.length < LOGSIZE ∧
      l.lh.length < size - 1 ∧ (∀ q c, u.pc q = .commit c → l.pc q = .commit c) := by
  rcases Log.step_cases hs with ⟨q, hl, _⟩ | ⟨q, hl, _⟩ | ⟨q, hl, _⟩ | ⟨q, b', w, hl, hp, ht⟩ |
    ⟨q, w, hl, _⟩ | ⟨q, c, hl, _⟩ | ⟨q, hl, _⟩ <;> cases hl
  unfold Log.logWrite at ht
  split_ifs at ht with h1 h2
  cases ht
  refine ⟨by simp [hp, Pc.isInOp], rfl, by omega, by omega, ?_⟩
  intro q c hq
  by_cases hqp : q = p
  · subst hqp
    simp [LogState.setPc] at hq
  · simpa [LogState.setPc, hqp] using hq

theorem logWrite_inv (h : Inv L dev s)
    (hi : (s.cache.hold i p).Has) (hw : Writable L (s.cache.buf i).blockno)
    (hu : Log.Step L.size s.log (.logWrite p (s.cache.buf i).blockno) u)
    (hx : s.cache.logWrite p i (decide ((s.cache.buf i).blockno ∉ s.log.lh)) = some x) :
    Inv L dev { s with log := u, cache := x } := by
  obtain ⟨hp, hlh, hl1, hl2, hpc⟩ := logWrite_lh hu
  have hno := h.no_commit hp
  have hnu (q : P) (c : Stage) : u.pc q ≠ .commit c := fun hq => hno q c (hpc q c hq)
  obtain ⟨h1, h2, h3⟩ := h.idle hno
  have hdev := h.coherent.named i p hi.locks.ne_none
  -- the block is in the header exactly when its buffer, which is this one, is pinned
  have hpin : (s.cache.buf i).blockno ∈ s.log.lh ↔ s.cache.pins i ≠ 0 := by
    constructor
    · intro hm
      obtain ⟨j, hj, hjb, hjp⟩ := h1 _ hm
      rwa [h.coherent.names j i hj hdev hjb] at hjp
    · exact fun hpi => (h.coherent.pinned i hpi).2.2.2.2
  have hnew : decide ((s.cache.buf i).blockno ∉ s.log.lh) = decide (s.cache.pins i = 0) := by
    simp [hpin]
  have hmem (b : Nat) : b ∈ u.lh ↔ b ∈ s.log.lh ∨ b = (s.cache.buf i).blockno := by
    rw [hlh]
    exact mem_absorb _ _ _
  have hcoh : Coherent L dev u.lh x :=
    logWrite_coherent h.coherent hi hw.1 (fun b hb => (hmem b).mpr (Or.inl hb))
      ((hmem _).mpr (Or.inr rfl)) hnew hx
  have hdisk : x.disk = s.cache.disk ∧ x.committed = s.cache.committed ∧
      (∀ j, (x.buf j).dev = (s.cache.buf j).dev ∧ (x.buf j).blockno = (s.cache.buf j).blockno) ∧
      (∀ j, s.cache.pins j ≠ 0 → x.pins j ≠ 0) ∧ x.pins i ≠ 0 := by
    simp only [Cache.logWrite, if_pos hi] at hx
    split_ifs at hx with hn
    · cases hx
      refine ⟨rfl, rfl, fun j => put_names s.cache i _ p .held (by rfl) (by rfl) j, ?_, by simp⟩
      intro j hj
      by_cases hji : j = i
      · subst hji
        simp
      · simpa [hji] using hj
    · cases hx
      have hpi : s.cache.pins i ≠ 0 := hpin.mp (by simpa using hn)
      exact ⟨rfl, rfl, fun j => put_names s.cache i _ p .held (by rfl) (by rfl) j, fun _ hj => hj, hpi⟩
  obtain ⟨hd, hc, hn, hp1, hp2⟩ := hdisk
  refine ⟨Log.step_inv h.log hu, hcoh, ?_, ?_, ?_, fun q c hq => absurd hq (hnu q c),
    fun q c hq => absurd hq (hnu q c)⟩
  · intro b hb
    rcases (hmem b).mp hb with hb | rfl
    · exact h.home b hb
    · exact hw
  · have := (absorb_length s.log.lh (s.cache.buf i).blockno).2
    change u.lh.length ≤ L.size - 1 ∧ u.lh.length ≤ LOGSIZE
    rw [hlh]
    omega
  intro _
  refine ⟨?_, by rwa [hd], by rwa [hd, hc]⟩
  intro b hb
  rcases (hmem b).mp hb with hb | rfl
  · obtain ⟨j, hj, hjb, hjp⟩ := h1 b hb
    exact ⟨j, (hn j).1.trans hj, (hn j).2.trans hjb, hp1 j hjp⟩
  · exact ⟨i, (hn i).1.trans hdev, (hn i).2, hp2⟩

theorem run_inv (h : Inv L dev s) {c : Stage} {cmd : Cmd} {rest : List Cmd} {u : Sys P}
    (hp : s.log.pc p = .commit c) (hcode : s.code p = cmd :: rest)
    (hu : runCmd dev s p c i cmd = some u) : Inv L dev { u with code := update u.code p rest } := by
  have hreg := h.registers p c hp
  have hprog := h.progress p c hp
  rw [hcode] at hreg hprog
  have honly (q : P) (d : Stage) (hq : s.log.pc q = .commit d) : q = p ∧ d = c := by
    have hqp := h.log.unique q p d c hq hp
    subst hqp
    rw [hp] at hq
    cases hq
    exact ⟨rfl, rfl⟩
  suffices hstep : ∃ x reg, u = { s with cache := x, reg := reg } ∧
      Coherent L dev s.log.lh x ∧ Registers L dev s.log.lh x p c rest (reg p) ∧
      Progress L dev s.log.lh x c rest by
    obtain ⟨x, reg, rfl, h1, h2, h3⟩ := hstep
    refine ⟨h.log, h1, h.home, h.room, fun hno => absurd hp (hno p c), ?_, ?_⟩
    · intro q d hq
      obtain ⟨rfl, rfl⟩ := honly q d hq
      simpa using h2
    · intro q d hq
      obtain ⟨rfl, rfl⟩ := honly q d hq
      simpa using h3
  obtain ⟨hmem, _, hfit⟩ := hreg.next
  cases cmd with
  | touch r a =>
    have hw : wrote rest = wrote (.touch r a :: rest) := by simp [wrote]
    have hun : unpinned rest = unpinned (.touch r a :: rest) := by simp [unpinned]
    by_cases ha : ∃ b, a = .bget b
    · obtain ⟨b, rfl⟩ := ha
      simp only [runCmd] at hu
      obtain ⟨x, hx, rfl⟩ := Option.map_eq_some_iff.mp hu
      obtain ⟨hcoh, hq, _⟩ := touch_spec h.coherent hx
      refine ⟨x, _, rfl, hcoh, ?_, hprog.quiet h.coherent hq hw hun⟩
      rw [update_self]
      exact touch_registers hreg h.coherent (fun hb => absurd rfl (hb b)) hx
    have hu' : (s.cache.touch dev p (s.reg p r) a).map (fun x => { s with cache := x }) =
        some u := by
      cases a with
      | bget b => exact absurd ⟨b, rfl⟩ ha
      | _ => exact hu
    obtain ⟨x, hx, rfl⟩ := Option.map_eq_some_iff.mp hu'
    obtain ⟨hcoh, hq, _⟩ := touch_spec h.coherent hx
    refine ⟨x, s.reg, rfl, hcoh, ?_, hprog.quiet h.coherent hq hw hun⟩
    have ht := touch_registers hreg h.coherent (fun _ => rfl) hx
    rwa [update_eq_self] at ht
  | memmove d r =>
    have hheld : s.cache.hold (s.reg p d) p = .held := by
      have hd : phase (.memmove d r :: rest) d = .held := by simp [phase]
      exact (hreg.live d (by simp [hd])).trans hd
    have hhas : (s.cache.hold (s.reg p d) p).Has := Or.inl hheld
    simp only [runCmd, Cache.modify, if_pos hhas, map_some, some.injEq] at hu
    subst hu
    exact ⟨_, s.reg, rfl, modify_coherent h.coherent hhas _,
      memmove_registers hreg hprog h.coherent h.home h.room.1,
      hprog.congr h.coherent (by simp [wrote]) (by simp [unpinned]) rfl rfl rfl rfl
        (fun j _ => put_names s.cache _ _ p _ (by rfl) (by rfl) j)⟩
  | putHead r =>
    have hheld : s.cache.hold (s.reg p r) p = .held := by
      have hd : phase (.putHead r :: rest) r = .held := by simp [phase]
      exact (hreg.live r (by simp [hd])).trans hd
    have hhas : (s.cache.hold (s.reg p r) p).Has := Or.inl hheld
    simp only [runCmd, Cache.modify, if_pos hhas, map_some, some.injEq] at hu
    subst hu
    exact ⟨_, s.reg, rfl, modify_coherent h.coherent hhas _, putHead_registers hreg h.coherent,
      hprog.congr h.coherent (by simp [wrote]) (by simp [unpinned]) rfl rfl rfl rfl
        (fun j _ => put_names s.cache _ _ p _ (by rfl) (by rfl) j)⟩
  | bwrite r =>
    simp only [runCmd] at hu
    obtain ⟨y, hy, rfl⟩ := Option.map_eq_some_iff.mp hu
    have herased (hc : c = .eraseHead) : s.log.lh = [] := (h.log.erased p c hp (Or.inl hc)).1
    exact ⟨_, s.reg, rfl, bwrite_committing hreg hprog h.coherent h.home h.room herased hy rfl⟩
  | bunpin r =>
    obtain ⟨hheld, hpin, hdisk, hprog'⟩ := bunpin_progress hreg hprog h.coherent h.log.nodup
    simp only [runCmd, some.injEq] at hu
    subst hu
    exact ⟨_, s.reg, rfl, bunpin_coherent h.coherent hheld hpin hdisk, bunpin_registers hreg,
      hprog'⟩

theorem keep_inv (h : Inv L dev s) (hu : Log.Inv u) (hlh : u.lh = s.log.lh)
    (hpc : ∀ q c, u.pc q = .commit c ↔ s.log.pc q = .commit c) (hp : ∀ c, s.log.pc p ≠ .commit c)
    (code : List Cmd) : Inv L dev { s with log := u, code := update s.code p code } := by
  have hcode (q : P) (c : Stage) (hq : u.pc q = .commit c) :
      s.log.pc q = .commit c ∧ update s.code p code q = s.code q := by
    have hq' := (hpc q c).mp hq
    refine ⟨hq', update_of_ne ?_ _ _⟩
    rintro rfl
    exact hp c hq'
  refine ⟨hu, ?_, ?_, ?_, ?_, ?_, ?_⟩ <;> dsimp only <;> rw [hlh]
  · exact h.coherent
  · exact h.home
  · exact h.room
  · exact fun hno => h.idle fun q c hq => hno q c ((hpc q c).mpr hq)
  · intro q c hq
    obtain ⟨h1, h2⟩ := hcode q c hq
    rw [h2]
    exact h.registers q c h1
  · intro q c hq
    obtain ⟨h1, h2⟩ := hcode q c hq
    rw [h2]
    exact h.progress q c h1

theorem enter_inv {d : Stage} (hu : Log.Inv u) (hpc : u.pc p = .commit d)
    (hcoh : Coherent L dev u.lh s.cache) (hhome : ∀ b ∈ u.lh, Writable L b)
    (hroom : u.lh.length ≤ L.size - 1 ∧ u.lh.length ≤ LOGSIZE)
    (hnone : ∀ i, s.cache.hold i p = .none)
    (hprog : Progress L dev u.lh s.cache d (script L u.lh d)) :
    Inv L dev { s with log := u, code := update s.code p (codeAt L u.lh (u.pc p)) } := by
  have honly (q : P) (c : Stage) (hq : u.pc q = .commit c) : q = p ∧ c = d := by
    have hqp := hu.unique q p c d hq hpc
    subst hqp
    rw [hpc] at hq
    cases hq
    exact ⟨rfl, rfl⟩
  refine ⟨hu, hcoh, hhome, hroom, fun hno => absurd hpc (hno p d), ?_, ?_⟩
  · intro q c hq
    obtain ⟨rfl, rfl⟩ := honly q c hq
    simp only [update_self, hpc, codeAt]
    exact Registers.start hnone
  · intro q c hq
    obtain ⟨rfl, rfl⟩ := honly q c hq
    simp only [update_self, hpc, codeAt]
    exact hprog

omit [DecidableEq P] in
theorem Coherent.no_pins {lh lh' : List Nat} (h : Coherent L dev lh x)
    (hp : ∀ i, x.pins i = 0) : Coherent L dev lh' x :=
  ⟨h.names, h.refs, h.lock, h.named, h.filled, fun i hi => absurd (hp i) hi, h.data, h.clean⟩

omit [Fintype P] in
theorem beginOp_pc (l : LogState P) (p q : P) (c : Stage) (hp : l.pc p = .entering) :
    (beginOp l p).lh = l.lh ∧ ((beginOp l p).pc q = .commit c ↔ l.pc q = .commit c) := by
  unfold beginOp
  by_cases hq : q = p
  · subst hq
    split_ifs <;> simp [LogState.setPc, hp]
  · split_ifs <;> simp [LogState.setPc, hq]

theorem log_inv (h : Inv L dev s) {a : Log.Label P} (hm : MayLog s a)
    (hs : Log.Step L.size s.log a u) :
    Inv L dev { s with
      log := u, code := update s.code (actor a) (codeAt L u.lh (u.pc (actor a))) } := by
  have hu := Log.step_inv h.log hs
  have setPc_pc {p : P} (c : Pc) (hc : ∀ d, c ≠ .commit d) (hp : ∀ d, s.log.pc p ≠ .commit d)
      (q : P) (d : Stage) : (s.log.setPc p c).pc q = .commit d ↔ s.log.pc q = .commit d := by
    by_cases hq : q = p
    · subst hq
      simp [LogState.setPc, hc, hp]
    · simp [LogState.setPc, hq]
  rcases Log.step_cases hs with ⟨p, rfl, hp, rfl⟩ | ⟨p, rfl, hp, rfl⟩ | ⟨p, rfl, hp, rfl⟩ |
    ⟨p, b, w, rfl, hp, ht⟩ | ⟨p, w, rfl, hp, ht⟩ | ⟨p, c, rfl, hp, ht⟩ | ⟨p, rfl, hp, rfl⟩
  · exact keep_inv h hu rfl (setPc_pc _ (by simp) (by simp [hp])) (by simp [actor, hp]) _
  · exact keep_inv h hu (beginOp_pc s.log p p .start hp).1
      (fun q c => (beginOp_pc s.log p q c hp).2) (by simp [actor, hp]) _
  · exact keep_inv h hu rfl (setPc_pc _ (by simp) (by simp [hp])) (by simp [actor, hp]) _
  · exact hm.elim
  · have hnc := h.log.not_committing hp
    have hno := h.no_commit (p := p) (by simp [hp, Pc.isInOp])
    unfold endOp at ht
    simp only [hnc, Bool.false_eq_true, if_false] at ht
    split_ifs at ht
    · cases ht
      obtain ⟨h1, h2, h3⟩ := h.idle hno
      refine enter_inv hu (d := .start) (by simp [LogState.setPc, actor]) h.coherent h.home h.room hm ?_
      refine ⟨by simp, ?_, fun _ => ⟨h2, h3⟩, fun hd => hd.elim, by simp, ?_, ?_⟩
      · exact fun _ _ _ hk => hk.elim
      · exact fun k b hb _ => h1 b (List.mem_of_getElem? hb)
      · intro i hi
        obtain ⟨k, hk⟩ := List.mem_iff_getElem?.mp (h.coherent.pinned i hi).2.2.2.2
        exact ⟨k, hk, id⟩
    cases ht
    refine keep_inv h hu rfl ?_ (fun c => hno p c) _
    intro q c
    simp only [wakeup_commit]
    by_cases hq : q = p
    · subst hq
      simp [hp]
    · simp [hq]
  · have hreg := h.registers p c hp
    have hprog := h.progress p c hp
    have hcode : s.code p = [] := hm
    rw [hcode] at hreg hprog
    have hnone (i : Fin NBUF) : s.cache.hold i p = .none := by
      by_contra hi
      obtain ⟨r, hr, _⟩ := hreg.only i hi
      exact hr rfl
    obtain ⟨d, hd, hprog', hlh⟩ := commitStep_progress ht hprog
      (fun hc => (h.log.erased p c hp (Or.inl hc)).1)
    have hpc : u.pc p = .commit d := by rw [hd, update_self]
    rcases hlh with hlh | ⟨hlh, hpins⟩
    · exact enter_inv hu hpc (hlh ▸ h.coherent) (hlh ▸ h.home) (hlh ▸ h.room) hnone hprog'
    · exact enter_inv hu hpc (h.coherent.no_pins hpins) (by simp [hlh]) (by simp [hlh]) hnone hprog'
  · have hlh := (h.log.erased p _ hp (Or.inr rfl)).1
    have hno (q : P) (c : Stage) : (endCommit s.log p).pc q ≠ .commit c := by
      simp only [endCommit, ne_eq, wakeup_commit]
      by_cases hq : q = p
      · subst hq
        simp
      · simp only [update_of_ne hq]
        exact fun hc => hq (h.log.unique q p c _ hc hp)
    refine ⟨hu, h.coherent, h.home, h.room, ?_, fun q c hq => absurd hq (hno q c),
      fun q c hq => absurd hq (hno q c)⟩
    intro _
    refine ⟨?_, (h.progress p _ hp).before id⟩
    intro b hb
    simp [endCommit, hlh] at hb

theorem step_inv {t : Sys P} {l : Label P} (h : Inv L dev s) (hs : Step L dev s l t) :
    Inv L dev t := by
  cases step_cases hs with
  | log hm hu => exact log_inv h hm hu
  | touch hr hx => exact touch_inv h hr hx
  | modify hp hi => exact modify_inv h hp hi
  | logWrite hi hw hu hx => exact logWrite_inv h hi hw hu hx
  | run hp hc hu => exact run_inv h hp hc hu

end Steps

section History

variable {L : LogArea} {dev : Nat} {s t : Sys P} {l : Label P}

/-- The contents last passed to `log_write`, after one more step. -/
def passed (s : Sys P) : Label P → Disk
  | .logWrite _ i => update s.cache.latest (s.cache.buf i).blockno (s.cache.buf i).data
  | _ => s.cache.latest

theorem touch_history {a : Cache.Touch} (hs : s.cache.touch dev p i a = some x) :
    x.latest = s.cache.latest ∧ x.committed = s.cache.committed := by
  cases a with
  | bget b =>
    simp only [Cache.touch, Cache.bget] at hs
    split_ifs at hs
    obtain ⟨_, _, rfl⟩ := Option.map_eq_some_iff.mp hs
    exact ⟨rfl, rfl⟩
  | acquiresleep | fill | releasesleep | drop =>
    simp only [Cache.touch, Cache.acquiresleep, Cache.fill, Cache.releasesleep, Cache.drop] at hs
    split_ifs at hs <;> cases hs <;> exact ⟨rfl, rfl⟩

/-- Of the commands of `commit` only the `bwrite` of `write_head` touches the history. -/
theorem runCmd_history {c : Stage} {cmd : Cmd} {u : Sys P} (hu : runCmd dev s p c i cmd = some u) :
    u.log = s.log ∧ u.cache.latest = s.cache.latest ∧ (u.cache.committed = s.cache.committed ∨
        u.cache.committed = s.cache.latest ∧ c = .writeHead ∧ ∃ r, cmd = .bwrite r) := by
  cases cmd with
  | touch r a =>
    have hu' : ∃ j x, s.cache.touch dev p j a = some x ∧ u.log = s.log ∧ u.cache = x := by
      cases a with
      | bget b =>
        obtain ⟨x, hx, rfl⟩ := Option.map_eq_some_iff.mp hu
        exact ⟨i, x, hx, rfl, rfl⟩
      | _ =>
        obtain ⟨x, hx, rfl⟩ := Option.map_eq_some_iff.mp hu
        exact ⟨_, x, hx, rfl, rfl⟩
    obtain ⟨j, x, hx, h1, rfl⟩ := hu'
    have hh := touch_history hx
    exact ⟨h1, hh.1, Or.inl hh.2⟩
  | memmove | putHead =>
    obtain ⟨x, hx, rfl⟩ := Option.map_eq_some_iff.mp hu
    simp only [Cache.modify] at hx
    split_ifs at hx
    cases hx
    exact ⟨rfl, rfl, Or.inl rfl⟩
  | bwrite r =>
    obtain ⟨x, hx, rfl⟩ := Option.map_eq_some_iff.mp hu
    simp only [Cache.bwrite] at hx
    split_ifs at hx
    cases hx
    by_cases hc : c = .writeHead
    · rw [if_pos hc]
      exact ⟨rfl, rfl, Or.inr ⟨rfl, hc, r, rfl⟩⟩
    · rw [if_neg hc]
      exact ⟨rfl, rfl, Or.inl rfl⟩
  | bunpin r =>
    cases hu
    exact ⟨rfl, rfl, Or.inl rfl⟩

theorem step_latest (hs : Step L dev s l t) : t.cache.latest = passed s l := by
  cases step_cases hs with
  | log | modify => rfl
  | touch hr hx => exact (touch_history hx).1
  | logWrite hi hw hu hx =>
    simp only [Cache.logWrite, if_pos hi] at hx
    split_ifs at hx <;> cases hx <;> rfl
  | run hp hc hu => exact (runCmd_history hu).2.1

/-- What counts as committed changes when a header with the logged blocks reaches the disk. -/
theorem step_committed (h : Inv L dev s) (hs : Step L dev s l t)
    (hne : t.cache.committed ≠ s.cache.committed) :
    t.cache.committed = s.cache.latest ∧ s.log.lh ≠ [] ∧ readHead (s.cache.disk L.start) = [] ∧
      readHead (t.cache.disk L.start) = s.log.lh.map UInt32.ofNat := by
  have ht := step_inv h hs
  cases step_cases hs with
  | log | modify => exact absurd rfl hne
  | touch hr hx => exact absurd (touch_history hx).2 hne
  | logWrite hi hw hu hx =>
    simp only [Cache.logWrite, if_pos hi] at hx
    split_ifs at hx <;> cases hx <;> exact absurd rfl hne
  | @run p _ _ _ rest u hp hc hu =>
    obtain ⟨hlog, _, hcom⟩ := runCmd_history hu
    rcases hcom with hcom | ⟨hcom, rfl, r, rfl⟩
    · exact absurd hcom hne
    have hreg := h.registers p _ hp
    have hprog := h.progress p _ hp
    rw [hc] at hreg hprog
    have hw : wrote rest = true := hreg.next.2.2.2.1
    have hpt : u.log.pc p = .commit .writeHead := by rw [hlog]; exact hp
    have hpr := ht.progress p _ hpt
    simp only [update_self] at hpr
    obtain ⟨_, hs', h2, h3⟩ := hpr.after hw
    refine ⟨hcom, hprog.nonempty (Or.inr (Or.inl rfl)),
      (hprog.before (by simp [HeadDone, wrote])).1, ?_⟩
    rw [h2.head, h3 (by simp), hlog]

end History

/-- The cache with log pinning is transparent: whoever has come back from `bread` and has not
changed the data sees the contents last passed to `log_write`, and as long as the log header on
the disk is empty, or the block is not in the log, its home location holds what was last
committed. -/
theorem bread_transparent {P : Type} [DecidableEq P] [Fintype P] (L : LogArea) (dev : Nat)
    (s₀ s : Sys P) (ls : List (Label P)) (hboot : Boot L dev s₀) (hr : Run (Step L dev) s₀ ls s) :
    (∀ p i, s.cache.hold i p = .held → L.Home (s.cache.buf i).blockno →
      (s.cache.buf i).data = s.cache.latest (s.cache.buf i).blockno) ∧
    (∀ b, L.Home b → readHead (s.cache.disk L.start) = [] ∨ b ∉ s.log.lh →
      s.cache.disk b = s.cache.committed b) ∧
    (∀ l t, Step L dev s l t → t.cache.latest = passed s l) ∧
    (∀ l t, Step L dev s l t → t.cache.committed ≠ s.cache.committed →
      t.cache.committed = s.cache.latest ∧ readHead (s.cache.disk L.start) = [] ∧
        readHead (t.cache.disk L.start) = s.log.lh.map UInt32.ofNat) := by
  have h : Inv L dev s := hr.invariant (Inv L dev) (boot_inv hboot) fun _ _ _ hi hs => step_inv hi hs
  refine ⟨?_, ?_, fun _ _ hs => step_latest hs, ?_⟩
  · intro p i hp hh
    rw [h.coherent.read hp, Cache.content, if_pos hh]
  · intro b hb hor
    by_cases hno : ∀ p c, s.log.pc p ≠ .commit c
    · exact (h.idle hno).2.2 b hb
    obtain ⟨p, hno⟩ := not_forall.mp hno
    obtain ⟨c, hp⟩ := not_forall_not.mp hno
    have hprog := h.progress p c hp
    by_cases hd : HeadDone (s.code p) c
    · -- the header is on the disk: the block is not part of the transaction
      obtain ⟨h1, hs, h2, h3⟩ := hprog.after hd
      rw [h1 b hb]
      apply h.coherent.clean b hb
      intro i _ hib
      by_contra hpin
      have hmem := (h.coherent.pinned i hpin).2.2.2.2
      rw [hib] at hmem
      rcases hor with hempty | hnot
      · have hc : c ≠ .eraseHead := by
          rintro rfl
          rw [(h.log.erased p _ hp (Or.inl rfl)).1] at hmem
          simp at hmem
        rw [h2.head, h3 hc] at hempty
        rw [List.map_eq_nil_iff.mp hempty] at hmem
        simp at hmem
      · exact hnot hmem
    · exact (hprog.before hd).2 b hb
  · intro l t hs hne
    obtain ⟨h1, _, h2, h3⟩ := step_committed h hs hne
    exact ⟨h1, h2, h3⟩

/-- A log of `LOGSIZE` blocks at block 2 and a zeroed disk, before anything has run. -/
def zeroSys : Sys Bool where
  log := LogState.init Bool
  cache := ⟨binit.buf, fun _ _ => .none, fun _ => 0, fun _ _ => 0, fun _ _ => 0, fun _ _ => 0⟩
  code := fun _ => []
  reg := fun _ _ => 0

def zeroArea : LogArea := ⟨2, LOGSIZE, by decide⟩

theorem zeroSys_boot : Boot zeroArea 1 zeroSys where
  log := rfl
  free := fun i => ⟨by simp [zeroSys, binit_buf], rfl, fun _ => rfl⟩
  names := fun i j hi => by simp [zeroSys, binit_buf] at hi
  data := fun i hi => by simp [zeroSys, binit_buf] at hi
  history := ⟨rfl, rfl⟩
  header := by decide

theorem bread_transparent_pinned :
    ∃ s : Sys Bool, Run (Step zeroArea 1) zeroSys
        [.log (.callBegin true), .log (.beginOp true), .touch true 0 (.bget 40),
          .touch true 0 .acquiresleep, .touch true 0 .fill, .modify true 0 (fun _ => 7),
          .logWrite true 0] s ∧
      s.cache.hold 0 true = .held ∧ (s.cache.buf 0).blockno = 40 ∧ (s.cache.buf 0).data 0 = 7 ∧
      (s.cache.buf 0).data = s.cache.latest 40 ∧ s.cache.disk 40 = s.cache.committed 40 := by
  have he : (exec (step zeroArea 1) zeroSys
      [.log (.callBegin true), .log (.beginOp true), .touch true 0 (.bget 40),
        .touch true 0 .acquiresleep, .touch true 0 .fill, .modify true 0 (fun _ => 7),
        .logWrite true 0]).map (fun s => (s.cache.hold 0 true, (s.cache.buf 0).blockno,
          (s.cache.buf 0).data 0, (readHead (s.cache.disk 2)).length)) =
        some (.held, 40, 7, 0) := by
    decide +kernel
  obtain ⟨s, hs, hv⟩ := Option.map_eq_some_iff.mp he
  simp only [Prod.mk.injEq] at hv
  obtain ⟨h1, h2, h3, h4⟩ := hv
  have hr : Run (Step zeroArea 1) zeroSys _ s := run_of_exec (step zeroArea 1) _ _ _ hs
  have hb : zeroArea.Home 40 := by decide
  obtain ⟨hread, hdisk, _⟩ := bread_transparent zeroArea 1 zeroSys s _ zeroSys_boot hr
  refine ⟨s, hr, h1, h2, h3, ?_, hdisk 40 hb (Or.inl (List.eq_nil_of_length_eq_zero h4))⟩
  have := hread true 0 h1 (by rw [h2]; exact hb)
  rwa [h2] at this

end Xv6.Cached
