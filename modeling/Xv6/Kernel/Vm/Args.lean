import Xv6.Kernel.Vm.ExecSpec

namespace Xv6.Vm

open ByteCodec Hoare List Option

/-- The stack pointer after `len` bytes have been pushed. -/
def pushed (sp len : Nat) : Nat := (sp - len) / 16 * 16

/-- The bytes of the stack that `len` bytes take. -/
def round16 (len : Nat) : Nat := (len + 15) / 16 * 16

/-- The bytes of the stack that the strings take. -/
def stringsSize (argv : List (List UInt8)) : Nat := (argv.map fun arg => round16 (arg.length + 1)).sum

/-- The bytes of the stack that the strings and the pointers to them take. -/
def blockSize (argv : List (List UInt8)) : Nat := stringsSize argv + round16 ((argv.length + 1) * 8)

/-- Where the strings go if they fit above `base`, and the stack pointer after them. -/
def places (base : Nat) : Nat → List (List UInt8) → Option (Nat × List Nat)
  | sp, [] => some (sp, [])
  | sp, arg :: argv =>
      if pushed sp (arg.length + 1) < base then none
      else (places base (pushed sp (arg.length + 1)) argv).map fun p =>
        (p.1, pushed sp (arg.length + 1) :: p.2)

/-- The contents with the strings in their places. -/
def storeStrings (f : Nat → Option (Nat × UInt8)) :
    List Nat → List (List UInt8) → Nat → Option (Nat × UInt8)
  | p :: ps, arg :: argv => storeStrings (overwrite f p (arg ++ [0])) ps argv
  | _, _ => f

/-- The bytes of the array of pointers. -/
def pointerBytes (ustack : List Nat) : List UInt8 :=
  (ustack ++ [0]).flatMap fun v => List.ofFn (u64.enc (UInt64.ofNat v))

/-- The strings are below `sp`, one below the other, down to `q`. -/
inductive Placed (q : Nat) : Nat → List Nat → List (List UInt8) → Prop
  | nil : Placed q q [] []
  | cons {sp p : Nat} {ps : List Nat} {arg : List UInt8} {argv : List (List UInt8)}
      (aligned : p % 16 = 0) (le : p + (arg.length + 1) ≤ sp) (tail : Placed q p ps argv) :
      Placed q sp (p :: ps) (arg :: argv)

/-- Arguments that `sys_exec` may pass. -/
structure Passable (argv : List (List UInt8)) : Prop where
  count : argv.length ≤ MAXARG - 1
  short : ∀ arg ∈ argv, arg.length < PGSIZE

variable {k base sp q : Nat} {argv : List (List UInt8)} {ps : List Nat}

section Places

variable {base sp q a : Nat} {ps : List Nat} {argv : List (List UInt8)}
  {f g : Nat → Option (Nat × UInt8)}

theorem pushed_mod (sp len : Nat) : pushed sp len % 16 = 0 := by
  rw [pushed]
  omega

theorem pushed_add (len : Nat) (hsp : sp % 16 = 0) (hlen : len ≤ sp) :
    pushed sp len + round16 len = sp := by
  rw [pushed, round16]
  omega

theorem le_round16 (len : Nat) : len ≤ round16 len := by
  rw [round16]
  omega

theorem stringsSize_cons (arg : List UInt8) (argv : List (List UInt8)) :
    stringsSize (arg :: argv) = round16 (arg.length + 1) + stringsSize argv := by
  simp [stringsSize]

section

variable (hsp : sp % 16 = 0) (hbase : 4096 ≤ base) (hle : base ≤ sp)
  (hshort : ∀ arg ∈ argv, arg.length < 4096)
include hsp hbase hle hshort

theorem places_eq_none : places base sp argv = none ↔ sp < base + stringsSize argv := by
  induction argv generalizing sp with
  | nil => simpa [places, stringsSize] using hle
  | cons arg argv ih =>
    have harg := hshort arg (.head _)
    have hadd := pushed_add (arg.length + 1) hsp (by omega)
    rw [places, stringsSize_cons]
    split_ifs with hlow
    · simp only [true_iff]
      omega
    · rw [map_eq_none_iff, ih (pushed_mod ..) (Nat.not_lt.mp hlow)
        fun arg' hmem => hshort arg' (.tail _ hmem)]
      omega

theorem places_placed (h : places base sp argv = some (q, ps)) :
    Placed q sp ps argv ∧ q + stringsSize argv = sp ∧ q % 16 = 0 ∧ base ≤ q := by
  induction argv generalizing sp ps with
  | nil =>
    simp only [places, some.injEq, Prod.mk.injEq] at h
    obtain ⟨rfl, rfl⟩ := h
    exact ⟨.nil, rfl, hsp, hle⟩
  | cons arg argv ih =>
    have harg := hshort arg (.head _)
    have hadd := pushed_add (arg.length + 1) hsp (by omega)
    have hround := le_round16 (arg.length + 1)
    rw [places] at h
    split_ifs at h with hlow
    obtain ⟨res, hres, heq⟩ := Option.map_eq_some_iff.mp h
    obtain ⟨rfl, rfl⟩ := Prod.mk.inj heq
    obtain ⟨hplaced, hsum, hmod, hq⟩ := ih (pushed_mod ..) (Nat.not_lt.mp hlow)
      (fun arg' hmem => hshort arg' (.tail _ hmem)) hres
    rw [stringsSize_cons]
    exact ⟨.cons (pushed_mod ..) (by omega) hplaced, by omega, hmod, hq⟩

end

theorem Placed.le (h : Placed q sp ps argv) : q ≤ sp := by
  induction h with
  | nil => exact Nat.le_refl _
  | cons _ _ _ ih => omega

theorem Placed.length (h : Placed q sp ps argv) : ps.length = argv.length := by
  induction h with
  | nil => rfl
  | cons _ _ _ ih => rw [length_cons, length_cons, ih]

variable {p : Nat}

variable (h : Placed q sp ps argv)
include h

theorem Placed.get {arg : List UInt8} (hp : ps[k]? = some p) (harg : argv[k]? = some arg) :
    p % 16 = 0 ∧ q ≤ p ∧ p + (arg.length + 1) ≤ sp := by
  induction h generalizing k with
  | nil => simp at hp
  | cons aligned le tail ih =>
    cases k with
    | zero =>
      simp only [getElem?_cons_zero, some.injEq] at hp harg
      subst hp harg
      exact ⟨aligned, tail.le, le⟩
    | succ k =>
      rw [getElem?_cons_succ] at hp harg
      have := ih hp harg
      omega

theorem Placed.disjoint {j p' : Nat} {arg' : List UInt8} (hjk : j < k) (hp : ps[j]? = some p)
    (hp' : ps[k]? = some p') (harg' : argv[k]? = some arg') : p' + (arg'.length + 1) ≤ p := by
  induction h generalizing j k with
  | nil => simp at hp
  | cons aligned le tail ih =>
    obtain ⟨k, rfl⟩ : ∃ i, k = i + 1 := ⟨k - 1, by omega⟩
    rw [getElem?_cons_succ] at hp' harg'
    cases j with
    | zero =>
      simp only [getElem?_cons_zero, some.injEq] at hp
      subst hp
      exact (tail.get hp' harg').2.2
    | succ j =>
      rw [getElem?_cons_succ] at hp
      exact ih (by omega) hp hp' harg'

omit h in
theorem storeStrings_congr (h : f a = g a) :
    storeStrings f ps argv a = storeStrings g ps argv a := by
  induction ps generalizing f g argv with
  | nil => exact h
  | cons p ps ih =>
    cases argv with
    | nil => exact h
    | cons arg argv => exact ih (overwrite_congr h)

omit h in
theorem overwrite_flags {fl dst : Nat} {bs : List UInt8} (h : ∃ b, f a = some (fl, b)) :
    ∃ b, overwrite f dst bs a = some (fl, b) := by
  obtain ⟨b, hb⟩ := h
  rw [overwrite, hb]
  split_ifs
  all_goals exact ⟨_, rfl⟩

omit h in
theorem storeStrings_flags {fl : Nat} (ps : List Nat) (argv : List (List UInt8))
    (h : ∃ b, f a = some (fl, b)) : ∃ b, storeStrings f ps argv a = some (fl, b) := by
  induction ps generalizing f argv with
  | nil => exact h
  | cons p ps ih =>
    cases argv with
    | nil => exact h
    | cons arg argv => exact ih argv (overwrite_flags h)

theorem Placed.store_out (ha : a < q ∨ sp ≤ a) : storeStrings f ps argv a = f a := by
  induction h generalizing f with
  | nil => rfl
  | @cons sp p ps arg argv aligned le tail ih =>
    have := tail.le
    rw [storeStrings, ih (by omega), overwrite_out]
    rw [length_append, length_singleton]
    omega

theorem Placed.store_string {arg : List UInt8} (hp : ps[k]? = some p) (harg : argv[k]? = some arg)
    (hle : p ≤ a) (hlt : a < p + (arg.length + 1)) :
    storeStrings f ps argv a = (f a).map fun x => (x.1, (arg ++ [0]).getD (a - p) 0) := by
  induction h generalizing f k with
  | nil => simp at hp
  | @cons sp p0 ps arg0 argv aligned le tail ih =>
    rw [storeStrings]
    cases k with
    | zero =>
      simp only [getElem?_cons_zero, some.injEq] at hp harg
      subst hp harg
      rw [tail.store_out (.inr hle), overwrite_in hle]
      rwa [length_append, length_singleton]
    | succ k =>
      rw [getElem?_cons_succ] at hp harg
      have hin := tail.get hp harg
      rw [ih hp harg, overwrite_out (.inl (by omega))]

end Places

theorem pointerBytes_length (ustack : List Nat) :
    (pointerBytes ustack).length = (ustack.length + 1) * 8 := by
  simp only [pointerBytes, length_flatMap, length_ofFn, map_const',
    sum_replicate, length_append, length_singleton, smul_eq_mul]

theorem leNat_u64 (x : UInt64) : leNat (ofFn (u64.enc x)) 0 8 = x.toNat := by
  have hx := x.toNat_lt
  simp only [leNat, u64, drop_zero, ofFn_succ, ofFn_zero, take_succ_cons,
    take_nil, foldr_cons, foldr_nil, UInt8.toNat_ofNat']
  simp only [Fin.val_zero, Fin.val_succ, pow_zero, Nat.div_one]
  omega

theorem flatMap_words {v : Nat} (l : List Nat) (h : l[k]? = some v) :
    ((l.flatMap fun v => ofFn (u64.enc (UInt64.ofNat v))).drop (8 * k)).take 8 =
      ofFn (u64.enc (UInt64.ofNat v)) := by
  induction l generalizing k with
  | nil => simp at h
  | cons w l ih =>
    have hlen : (ofFn (u64.enc (UInt64.ofNat w))).length = 8 := by simp
    rw [flatMap_cons]
    cases k with
    | zero =>
      simp only [getElem?_cons_zero, some.injEq] at h
      subst h
      rw [Nat.mul_zero, drop_zero, take_left' hlen]
    | succ k =>
      rw [getElem?_cons_succ] at h
      rw [Nat.mul_succ, Nat.add_comm, ← drop_drop, drop_left' hlen]
      exact ih h

section

variable [Machine] {own own₀ : Nat → Owner} {s s₀ s' : Mem} {r n tf : Nat} {E : Stop → Prop}

omit [Machine] in
theorem writable_congr {va : Nat} (h : mapping s' r va = mapping s r va) (hw : Writable s r va) :
    Writable s' r va := by
  obtain ⟨⟨hlt, hv, hu⟩, hw⟩ := hw
  have hpte : mapping s' r va = some (lookup s r va) := h.trans (mapping_eq_some.mpr ⟨hv, rfl⟩)
  obtain ⟨hv', heq⟩ := mapping_eq_some.mp hpte
  refine ⟨⟨hlt, ?_, ?_⟩, ?_⟩ <;> rwa [heq]

theorem Building.copyout_all {dst : Nat} (src : List UInt8) (h : Building own₀ own s₀ s r n tf)
    (hw : ∀ va, base ≤ va → va < n * 4096 → Writable s r va) (hle : base ≤ dst)
    (hend : dst + src.length ≤ n * 4096) :
    Wp E (Vm.copyout r dst src) s fun done s' => done = true ∧ Building own₀ own s₀ s' r n tf ∧
      (∀ va, base ≤ va → va < n * 4096 → Writable s' r va) ∧
      ∀ a < TRAPFRAME, view s' r a = overwrite (view s r) dst src a := by
  have hu := h.image.userTable h.heap.tables
  refine ((h.image.copyout h.heap.tables dst src).and (copyout_spec hu dst src)).mono ?_
  rintro done s' ⟨ht, hdone, hall, -, -, -⟩
  have htrue : done = true := hdone.mpr fun j hj => hw _ (by omega) (by omega)
  refine ⟨htrue, h.touches ht, fun va hlo hhi => ?_, fun a ha => ?_⟩
  · exact writable_congr (ht.mapping h.heap.tables (fun _ h => h.data) h.image.space.root va)
      (hw va hlo hhi)
  · exact h.image.space.view_stored ht h.heap.tables (hall htrue) (fun j hj => by omega) ha

theorem pushStrings_places (ustack : List Nat) (h : Building own₀ own s₀ s r n tf)
    (hw : ∀ va, base ≤ va → va < n * 4096 → Writable s r va) (hbase : 4096 ≤ base) (hle : base ≤ sp)
    (hsp : sp ≤ n * 4096) (hcount : ustack.length + argv.length < MAXARG)
    (hshort : ∀ arg ∈ argv, arg.length < 4096) :
    Wp E (pushStrings r base argv sp ustack) s fun res s' =>
      res = (places base sp argv).map (fun p => (p.1, ustack ++ p.2)) ∧
      Building own₀ own s₀ s' r n tf ∧ (∀ va, base ≤ va → va < n * 4096 → Writable s' r va) ∧
      ∀ p, places base sp argv = some p → ∀ a < TRAPFRAME,
        view s' r a = storeStrings (view s r) p.2 argv a := by
  induction argv generalizing s sp ustack with
  | nil =>
    rw [pushStrings, wp_pure]
    refine ⟨by simp [places], h, hw, fun p hp a _ => ?_⟩
    simp only [places, some.injEq] at hp
    subst hp
    rfl
  | cons arg argv ih =>
    have hbound := h.image.space.bound
    have hmax := TRAPFRAME_lt
    have harg := hshort arg (.head _)
    rw [length_cons] at hcount
    -- no underflow
    have hsp1 : (sp + 2 ^ 64 - (arg.length + 1)) % 2 ^ 64 = sp - (arg.length + 1) := by omega
    have hsp2 : sp - (arg.length + 1) - (sp - (arg.length + 1)) % 16 =
        pushed sp (arg.length + 1) := by
      rw [pushed]
      omega
    have hlow : pushed sp (arg.length + 1) + (arg.length + 1) ≤ sp := by
      rw [pushed]
      omega
    rw [pushStrings, places, if_neg (by omega)]
    simp only [hsp1, hsp2]
    generalize pushed sp (arg.length + 1) = sp' at hlow
    rw [wp_ite]
    split_ifs with hfit
    · rw [wp_pure]
      exact ⟨rfl, h, hw, fun p hp => by cases hp⟩
    refine (h.copyout_all (arg ++ [0]) hw (Nat.not_lt.mp hfit) ?_).bind ?_
    · rw [length_append, length_singleton]
      omega
    rintro _ s1 ⟨rfl, h1, hw1, hview1⟩
    simp only [Bool.true_eq_false, if_false]
    refine (ih (ustack ++ [sp']) h1 hw1 (Nat.not_lt.mp hfit) (by omega) ?_ fun arg' hmem =>
      hshort arg' (.tail _ hmem)).mono ?_
    · rw [length_append, length_singleton]
      omega
    rintro res s2 ⟨rfl, h2, hw2, hview2⟩
    refine ⟨?_, h2, hw2, fun p hp a ha => ?_⟩
    · cases places base sp' argv <;> simp
    · obtain ⟨p', hp', rfl⟩ := Option.map_eq_some_iff.mp hp
      rw [hview2 p' hp' a ha, storeStrings]
      exact storeStrings_congr (hview1 a ha)

theorem pushArgv_places {entry sz : Nat} {ustack : List Nat} (h0 : Heap own₀ s₀)
    (hr : own₀ r = .free) (h : Building own₀ own s₀ s r (pages sz) tf)
    (hw : ∀ va, base ≤ va → va < pages sz * 4096 → Writable s r va) (hbase : 4096 ≤ base)
    (hle : base ≤ sp) (hsp : sp ≤ pages sz * 4096) (hcount : ustack.length < MAXARG) :
    Wp E (pushArgv r entry sz base sp ustack) s fun res s' =>
      (pushed sp ((ustack.length + 1) * 8) < base → res = none) ∧
      (base ≤ pushed sp ((ustack.length + 1) * 8) →
        res = some ⟨r, sz, entry, pushed sp ((ustack.length + 1) * 8), ustack.length⟩ ∧
        ∀ a < TRAPFRAME, view s' r a =
          overwrite (view s r) (pushed sp ((ustack.length + 1) * 8)) (pointerBytes ustack) a) := by
  have hbound := h.image.space.bound
  have hmax := TRAPFRAME_lt
  rw [MAXARG] at hcount
  have hsp1 : (sp + 2 ^ 64 - (ustack.length + 1) * 8) % 2 ^ 64 = sp - (ustack.length + 1) * 8 := by
    omega
  have hsp2 : sp - (ustack.length + 1) * 8 - (sp - (ustack.length + 1) * 8) % 16 =
      pushed sp ((ustack.length + 1) * 8) := by
    rw [pushed]
    omega
  have hlow : pushed sp ((ustack.length + 1) * 8) + (ustack.length + 1) * 8 ≤ sp := by
    rw [pushed]
    omega
  rw [pushArgv]
  simp only [hsp1, hsp2]
  generalize pushed sp ((ustack.length + 1) * 8) = sp' at hlow
  rw [wp_ite]
  split_ifs with hfit
  · refine (execBad_spec h0 hr h).mono ?_
    rintro res s' ⟨-, rfl⟩
    exact ⟨fun _ => rfl, fun hle' => absurd hfit (Nat.not_lt.mpr hle')⟩
  refine (h.copyout_all (pointerBytes ustack) hw (Nat.not_lt.mp hfit) ?_).bind ?_
  · rw [pointerBytes_length]
    omega
  rintro _ s1 ⟨rfl, h1, hw1, hview1⟩
  simp only [Bool.true_eq_false, if_false, wp_pure]
  exact ⟨fun hlt => absurd hlt hfit, fun _ => ⟨trivial, hview1⟩⟩

/-- The new address space `l` with its arguments, for a program of `k` pages that was loaded in
`s`. -/
structure Arranged (s : Mem) (r entry k : Nat) (argv : List (List UInt8)) (l : Loaded) (s' : Mem)
    (q : Nat) (ps : List Nat) : Prop where
  placed : Placed q ((k + 3) * 4096) ps argv
  sum : q + stringsSize argv = (k + 3) * 4096
  aligned : q % 16 = 0
  loaded : l = ⟨r, (k + 3) * 4096, entry, pushed q ((argv.length + 1) * 8), argv.length⟩
  room : (k + 1) * 4096 ≤ l.sp
  view : ∀ a < TRAPFRAME, view s' r a = overwrite (storeStrings
    (hide (grow (view s r) k (k + 3) PTE_W) k) ps argv) l.sp (pointerBytes ps) a

/-- `exec` from where it allocates the stack: it fails for all arguments, or just for those that do
not fit. -/
theorem execStack_places (entry : Nat) (h0 : Heap own₀ s₀) (hr : own₀ r = .free)
    (h : Building own₀ own s₀ s r k tf) (hu : AllUser s r k) :
    (∀ argv, Wp E (execStack r entry (k * 4096) argv) s fun res _ => res = none) ∨
    ∀ argv, Passable argv → Wp E (execStack r entry (k * 4096) argv) s fun res s' =>
      (res = none ↔ USERSTACK * PGSIZE < blockSize argv) ∧
      ∀ l, res = some l → ∃ q ps, Arranged s r entry k argv l s' q ps := by
  rcases execStack_head entry h hu with ⟨own1, s1, h1, hrun⟩ | ⟨own2, s2, h2, hview, hrun⟩
  · exact .inl fun argv => .of_run (hrun argv) ((execBad_spec h0 hr h1).mono fun _ _ hbad => hbad.2)
  refine .inr fun argv hpass => ?_
  have hmax := TRAPFRAME_lt
  have htop := h2.image.space.bound
  have hw : ∀ va, (k + 1) * 4096 ≤ va → va < (k + 3) * 4096 → Writable s2 r va := by
    intro va hlo hhi
    have hval : view s2 r va = some (PTE_R ||| PTE_U ||| PTE_W ||| PTE_V, 0) := by
      rw [hview va (by omega), hide, if_neg (by omega), grow, if_neg (by omega), if_pos hhi]
    exact writable_of_view hval ((by omega : va < TRAPFRAME).trans_le TRAPFRAME_le) (by decide)
      (by decide)
  have hshort : ∀ arg ∈ argv, arg.length < 4096 := hpass.short
  have hcount := hpass.count
  have hsp : (k + 3) * 4096 % 16 = 0 := by omega
  have hpage : 4096 ≤ (k + 1) * 4096 := Nat.le_mul_of_pos_left 4096 (Nat.succ_pos k)
  have hroom : (k + 1) * 4096 ≤ (k + 3) * 4096 := Nat.mul_le_mul_right _ (by omega)
  refine hrun argv _ ((pushStrings_places [] h2 hw hpage hroom (Nat.le_refl _) ?_ hshort).mono ?_)
  · rw [length_nil, MAXARG] at *
    omega
  rintro _ s3 ⟨rfl, h3, hw3, hview3⟩
  have hsize : (USERSTACK * PGSIZE < blockSize argv ↔
      (k + 3) * 4096 < (k + 1) * 4096 + blockSize argv) := by
    rw [USERSTACK, PGSIZE]
    omega
  rw [hsize, blockSize]
  refine ⟨fun hnone => ?_, fun sp ustack hsome => ?_⟩
  · have hlow := (places_eq_none hsp hpage hroom hshort).mp (Option.map_eq_none_iff.mp hnone)
    refine (execBad_spec h0 hr (by rwa [pages_mul])).mono ?_
    rintro res s4 ⟨-, rfl⟩
    exact ⟨iff_of_true rfl (by omega), by simp⟩
  · obtain ⟨⟨q, ps⟩, hpl, heq⟩ := Option.map_eq_some_iff.mp hsome
    obtain ⟨rfl, rfl⟩ := Prod.mk.inj heq
    obtain ⟨hplaced, hsum, hmod, hq⟩ := places_placed hsp hpage hroom hshort hpl
    simp only [nil_append]
    have hlen := hplaced.length
    rw [← pages_mul (k + 3)] at h3 hw3
    refine (pushArgv_places h0 hr h3 hw3 hpage hq ?_ ?_).mono ?_
    · rw [pages_mul]
      omega
    · rw [hlen, MAXARG] at *
      omega
    rintro res s4 ⟨hbad, hgood⟩
    rw [hlen] at hbad hgood
    have hadd := pushed_add ((argv.length + 1) * 8) hmod (by
      rw [MAXARG] at hcount
      omega)
    by_cases hfit : pushed q ((argv.length + 1) * 8) < (k + 1) * 4096
    · rw [hbad hfit]
      exact ⟨iff_of_true rfl (by omega), by simp⟩
    obtain ⟨rfl, hview4⟩ := hgood (Nat.not_lt.mp hfit)
    refine ⟨iff_of_false (by simp) (by omega), fun l hl => ?_⟩
    cases hl
    refine ⟨q, ps, hplaced, hsum, hmod, rfl, Nat.not_lt.mp hfit, fun a ha => ?_⟩
    rw [hview4 a ha]
    refine overwrite_congr ((hview3 _ hpl a ha).trans ?_)
    exact storeStrings_congr (hview a ha)

/-- `exec` fails for all arguments, or just for those that do not fit. -/
theorem execImage_places (ip : List UInt8) (h : Heap own₀ s₀) (htf : tf < 2 ^ 56) :
    (∀ argv, Wp E (execImage tf (some ip) argv) s₀ fun res _ => res = none) ∨
    ∀ argv, Passable argv → Wp E (execImage tf (some ip) argv) s₀ fun res s' =>
      (res = none ↔ USERSTACK * PGSIZE < blockSize argv) ∧ ∀ l, res = some l →
        ∃ s k q ps, Arranged s l.pagetable l.entry k argv l s' q ps := by
  rcases execImage_head ip h htf with
    ⟨s, -, hrun⟩ | ⟨r, s1, sz, s2, own2, -, hr, -, -, h2, hu2, hrun⟩
  · exact .inl fun argv => .of_ok (hrun argv) rfl
  refine (execStack_places (E := E) _ h hr h2 hu2).imp
    (fun hfail argv => .of_run (hrun argv) (hfail argv)) fun hfit argv hpass =>
      .of_run (hrun argv) ((hfit argv hpass).mono ?_)
  rintro res s' ⟨hnone, harr⟩
  refine ⟨hnone, fun l hl => ?_⟩
  obtain ⟨q, ps, ha⟩ := harr l hl
  have hl' := ha.loaded
  subst hl'
  exact ⟨s2, pages sz, q, ps, ha⟩

def userWord (s : Mem) (r va : Nat) : Nat := leNat (userBytes s r va 8) 0 8

/-- The arguments on a stack that ends at `sz`: from `sp` on there are the pointers `ptr` and a null
pointer, and above them the strings, each in a place of its own. -/
structure ArgBlock (s : Mem) (r sp sz : Nat) (argv : List (List UInt8)) (ptr : List Nat) : Prop where
  length : ptr.length = argv.length
  size : sp + blockSize argv = sz
  aligned : sp % 16 = 0
  low : sz - USERSTACK * PGSIZE ≤ sp
  writable : ∀ va, sz - USERSTACK * PGSIZE ≤ va → va < sz → Writable s r va
  pointer : ∀ (k p : Nat), ptr[k]? = some p → userWord s r (sp + 8 * k) = p
  null : userWord s r (sp + 8 * argv.length) = 0
  string : ∀ (k p : Nat) (arg : List UInt8), ptr[k]? = some p → argv[k]? = some arg →
    userBytes s r p (arg.length + 1) = arg ++ [0] ∧ sp + 8 * (argv.length + 1) ≤ p ∧
      p + (arg.length + 1) ≤ sz
  disjoint : ∀ (j k p p' : Nat) (arg : List UInt8), j < k → ptr[j]? = some p → ptr[k]? = some p' →
    argv[k]? = some arg → p' + (arg.length + 1) ≤ p

omit [Machine] in
/-- The strings and the pointers can be read back from a stack that they were written to. -/
theorem ArgBlock.of_view {top : Nat} {f : Nat → Option (Nat × UInt8)}
    (hplaced : Placed q top ps argv) (hsum : q + stringsSize argv = top) (hmod : sp % 16 = 0)
    (hpush : sp + round16 ((argv.length + 1) * 8) = q) (hroom : base ≤ sp)
    (hbase : top - USERSTACK * PGSIZE = base) (hbound : top ≤ TRAPFRAME)
    (hstack : ∀ a, base ≤ a → a < top → f a = some (PTE_R ||| PTE_U ||| PTE_W ||| PTE_V, 0))
    (hview : ∀ a < TRAPFRAME, view s r a =
      overwrite (storeStrings f ps argv) sp (pointerBytes ps) a) : ArgBlock s r sp top argv ps := by
  have hlen := hplaced.length
  have hround := le_round16 ((argv.length + 1) * 8)
  have hbytes := pointerBytes_length ps
  rw [hlen] at hbytes
  have hcell : ∀ a, base ≤ a → a < top → ∃ b,
      view s r a = some (PTE_R ||| PTE_U ||| PTE_W ||| PTE_V, b) := by
    intro a hlo hhi
    rw [hview a (by omega)]
    exact overwrite_flags (storeStrings_flags _ _ ⟨_, hstack a hlo hhi⟩)
  have hptr : ∀ j v, (ps ++ [0])[j]? = some v → v < 2 ^ 64 → userWord s r (sp + 8 * j) = v := by
    intro j v hv hlt
    obtain ⟨hj, -⟩ := List.getElem?_eq_some_iff.mp hv
    rw [length_append, length_singleton] at hj
    have hword := flatMap_words (ps ++ [0]) hv
    have hsame : userBytes s r (sp + 8 * j) 8 = ofFn (u64.enc (UInt64.ofNat v)) := by
      refine userBytes_eq (by simp) fun i hi => ?_
      obtain ⟨b, hb⟩ := storeStrings_flags ps argv
        ⟨_, hstack (sp + 8 * j + i) (by omega) (by omega)⟩
      refine ⟨PTE_R ||| PTE_U ||| PTE_W ||| PTE_V, ?_⟩
      rw [hview _ (by omega), overwrite_in (by omega) (by omega), hb,
        map_some, ← hword, Nat.add_assoc, Nat.add_sub_cancel_left]
      simp only [getD_eq_getElem?_getD]
      rw [getElem?_take_of_lt hi, getElem?_drop, pointerBytes]
    rw [userWord, hsame, leNat_u64, UInt64.toNat_ofNat', Nat.mod_eq_of_lt hlt]
  have hsmall : ∀ {j p : Nat}, ps[j]? = some p → p < 2 ^ 64 := by
    intro j p hp
    obtain ⟨hj, -⟩ := List.getElem?_eq_some_iff.mp hp
    have := (hplaced.get hp (getElem?_eq_getElem (hlen ▸ hj))).2.2
    have hmax := TRAPFRAME_lt
    omega
  refine ⟨hlen, ?_, ?_, ?_, ?_, ?_, ?_, ?_, ?_⟩
  · rw [blockSize]
    omega
  · exact hmod
  · rwa [hbase]
  · intro va hlo hhi
    rw [hbase] at hlo
    obtain ⟨b, hb⟩ := hcell va hlo hhi
    exact writable_of_view hb ((by omega : va < TRAPFRAME).trans_le TRAPFRAME_le) (by decide)
      (by decide)
  · intro j p hp
    refine hptr j p ?_ (hsmall hp)
    obtain ⟨hj, -⟩ := List.getElem?_eq_some_iff.mp hp
    rwa [getElem?_append_left hj]
  · refine hptr argv.length 0 ?_ (by decide)
    rw [← hlen, getElem?_append_right (Nat.le_refl _)]
    simp
  · intro j p arg hp harg
    obtain ⟨-, hq, hend⟩ := hplaced.get hp harg
    refine ⟨userBytes_eq (by simp) fun i hi => ⟨PTE_R ||| PTE_U ||| PTE_W ||| PTE_V, ?_⟩, by omega,
      hend⟩
    rw [hview _ (by omega), overwrite_out (.inr (by omega)),
      hplaced.store_string hp harg (by omega) (by omega), hstack _ (by omega) (by omega),
      map_some, Nat.add_sub_cancel_left]
  · exact fun j k p p' arg hjk hp hp' harg => hplaced.disjoint hjk hp hp' harg

omit [Machine] in
theorem Arranged.block {entry : Nat} {l : Loaded} (h : Arranged s r entry k argv l s' q ps)
    (hbound : (k + 3) * 4096 ≤ TRAPFRAME) {m : Mem}
    (hview : ∀ a < TRAPFRAME, Vm.view m r a = Vm.view s' r a) : ArgBlock m r l.sp l.sz argv ps := by
  obtain ⟨hplaced, hsum, hmod, rfl, hroom, hshape⟩ := h
  refine .of_view hplaced hsum (pushed_mod ..) ?_ hroom ?_ hbound ?_ fun a ha =>
    (hview a ha).trans (hshape a ha)
  · refine pushed_add _ hmod ?_
    simp only [pushed] at hroom
    omega
  · rw [USERSTACK, PGSIZE]
    lia
  · intro a hlo hhi
    rw [hide, if_neg (by omega), grow, if_neg (by omega), if_pos hhi]

end

end Xv6.Vm
