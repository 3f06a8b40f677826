import Xv6.Kernel.Vm.Image

namespace Xv6.Vm

open ByteCodec Hoare Function List Nat

def phys (s : Mem) (r va : Nat) : Nat := PTE2PA (lookup s r va) + va % PGSIZE

/-- The user may use the page of an address. -/
def Readable (s : Mem) (r va : Nat) : Prop :=
  va < MAXVA ∧ Flag (lookup s r va) PTE_V ∧ Flag (lookup s r va) PTE_U

def Writable (s : Mem) (r va : Nat) : Prop := Readable s r va ∧ Flag (lookup s r va) PTE_W

/-- The bytes `bs` were written one after the other, the `j`-th one at `pa j`, and nothing else. -/
structure Stored (pa : Nat → Nat) (bs : List UInt8) (s s' : Mem) : Prop where
  freelist : s'.freelist = s.freelist
  fails : s'.fails = s.fails
  kept : ∀ a, (∀ j < bs.length, pa j ≠ a) → s'.byte a = s.byte a
  stored : ∀ j b, bs[j]? = some b → (∀ j', j < j' → j' < bs.length → pa j' ≠ pa j) →
    s'.byte (pa j) = b

variable {s s' s'' t : Mem} {r va : Nat} {pa : Nat → Nat} {bs bs' : List UInt8} {E : Stop → Prop}

theorem Mem.byte_setBytes (a x : Nat) : (s.setBytes a bs).byte x =
    if a ≤ x ∧ x - a < bs.length then bs.getD (x - a) 0 else s.byte x := by
  have hx : x / PGSIZE * PGSIZE + x % PGSIZE = x := div_add_mod' x PGSIZE
  simp only [Mem.byte, Mem.setBytes, hx]

theorem Mem.page_ext {k : Nat}
    (h : ∀ i < PGSIZE, s'.byte (k * PGSIZE + i) = s.byte (k * PGSIZE + i)) :
    s'.page k = s.page k := by
  funext i
  have hdiv : (k * PGSIZE + i) / PGSIZE = k := by
    rw [Nat.add_comm, add_mul_div_right _ _ (NeZero.pos PGSIZE), div_eq_of_lt i.isLt, Nat.zero_add]
  have hmod : (k * PGSIZE + i) % PGSIZE = i := by
    rw [Nat.add_comm, add_mul_mod_self_right, mod_eq_of_lt i.isLt]
  have := h i i.isLt
  simp only [Mem.byte, hdiv, hmod] at this
  exact this

theorem Stored.nil : Stored pa [] s s := by
  refine ⟨rfl, rfl, fun _ _ => rfl, fun j b hb => ?_⟩
  simp at hb

theorem Stored.setBytes (a : Nat) : Stored (fun j => a + j) bs s (s.setBytes a bs) := by
  refine ⟨rfl, rfl, ?_, ?_⟩
  · intro x hx
    rw [Mem.byte_setBytes, if_neg]
    rintro ⟨hle, hlt⟩
    exact hx (x - a) hlt (by omega)
  · intro j b hb _
    obtain ⟨hlt, -⟩ := List.getElem?_eq_some_iff.mp hb
    rw [Mem.byte_setBytes, if_pos (by omega), Nat.add_sub_cancel_left, getD_eq_getElem?_getD, hb]
    rfl

theorem Stored.congr {pa' : Nat → Nat} (h : Stored pa bs s s') (hpa : ∀ j < bs.length, pa' j = pa j) :
    Stored pa' bs s s' := by
  refine ⟨h.freelist, h.fails, ?_, ?_⟩
  · intro a ha
    refine h.kept a fun j hj => ?_
    rw [← hpa j hj]
    exact ha j hj
  intro j b hb hlast
  obtain ⟨hlt, -⟩ := List.getElem?_eq_some_iff.mp hb
  rw [hpa j hlt]
  refine h.stored j b hb fun j' hj hj' => ?_
  rw [← hpa j hlt, ← hpa j' hj']
  exact hlast j' hj hj'

theorem Stored.append (h : Stored pa bs s s')
    (h' : Stored (fun j => pa (bs.length + j)) bs' s' s'') : Stored pa (bs ++ bs') s s'' := by
  refine ⟨h'.freelist.trans h.freelist, h'.fails.trans h.fails, ?_, ?_⟩
  · intro a ha
    rw [length_append] at ha
    rw [h'.kept a fun j hj => ha _ (by omega), h.kept a fun j hj => ha j (by omega)]
  intro j b hb hlast
  rw [length_append] at hlast
  by_cases hj : j < bs.length
  · rw [getElem?_append_left hj] at hb
    rw [h'.kept _ fun j' hj' => hlast (bs.length + j') (by omega) (by omega)]
    exact h.stored j b hb fun j' hlt hj' => hlast j' hlt (by omega)
  rw [getElem?_append_right (by omega)] at hb
  have hj' : bs.length + (j - bs.length) = j := by omega
  have := h'.stored (j - bs.length) b hb fun j' hlt hj'' => by
    rw [hj']
    exact hlast _ (by omega) (by omega)
  rwa [hj'] at this

theorem Stored.page (h : Stored pa bs s s') {k : Nat} (hk : ∀ j < bs.length, pa j / PGSIZE ≠ k) :
    s'.page k = s.page k := by
  refine Mem.page_ext fun i hi => h.kept _ fun j hj heq => hk j hj ?_
  rw [heq, Nat.add_comm, add_mul_div_right _ _ (NeZero.pos PGSIZE), div_eq_of_lt hi, Nat.zero_add]

theorem phys_div (s : Mem) (r va : Nat) :
    phys s r va / PGSIZE = PTE2PA (lookup s r va) / PGSIZE := by
  have := PTE2PA_aligned (lookup s r va)
  rw [phys]
  rw [PGSIZE] at *
  omega

variable {j : Nat}

theorem lookup_add (hlt : va < MAXVA) (hj : va % 4096 + j < 4096) :
    lookup s r (va + j) = lookup s r va := by
  have hmax : MAXVA < 2 ^ 38 + 1 := by decide
  refine lookup_page (by omega) (by omega) ?_
  rw [PGSIZE]
  omega

theorem phys_add (hlt : va < MAXVA) (hj : va % 4096 + j < 4096) :
    phys s r (va + j) = PTE2PA (lookup s r va) + va % 4096 + j := by
  rw [phys, lookup_add hlt hj, PGSIZE]
  omega

theorem Readable.page (hj : va % 4096 + j < 4096) : Readable s r (va + j) ↔ Readable s r va := by
  have hmax : MAXVA = 2 ^ 26 * 4096 := by decide
  by_cases hlt : va < MAXVA
  · have hlt' : va + j < MAXVA := by omega
    rw [Readable, Readable, lookup_add hlt hj]
    simp only [hlt, hlt']
  · exact iff_of_false (fun h => hlt (by have := h.1; omega)) fun h => hlt h.1

theorem Writable.page (hj : va % 4096 + j < 4096) : Writable s r (va + j) ↔ Writable s r va := by
  rw [Writable, Writable, Readable.page hj]
  refine and_congr_right fun h => ?_
  rw [lookup_add h.1 hj]

theorem lookup_down (hlt : va < MAXVA) : lookup s r (PGROUNDDOWN va) = lookup s r va := by
  have hmax : MAXVA < 2 ^ 38 + 1 := by decide
  rw [PGROUNDDOWN, PGSIZE]
  refine lookup_page (by omega) (by omega) ?_
  rw [PGSIZE]
  omega

theorem sub_down (va : Nat) : va - PGROUNDDOWN va = va % 4096 := by
  rw [PGROUNDDOWN, PGSIZE]
  omega

theorem next_page {len m : Nat} (hlt : va < MAXVA) (hm : min (4096 - va % 4096) len = m)
    (hlen : m < len) : (PGROUNDDOWN va + PGSIZE) % 2 ^ 64 = va + m := by
  have hmax : MAXVA = 2 ^ 26 * 4096 := by decide
  rw [PGROUNDDOWN, PGSIZE]
  omega

variable {n : Nat}

section

variable [Machine] {own : Nat → Owner}

/-- A page table in which no page of the user is page 0 or a page-table page of the tree. -/
structure UserTable (own : Nat → Owner) (s : Mem) (r : Nat) : Prop where
  tables : Tables own s
  root : own r = .table r []
  user : ∀ va, Readable s r va → PTE2PA (lookup s r va) ≠ 0 ∧
    ∀ path, own (PTE2PA (lookup s r va)) ≠ .table r path

variable (h : UserTable own s r)
include h

theorem UserTable.lookup
    (ht : ∀ q path, own q = .table r path → t.page (q / PGSIZE) = s.page (q / PGSIZE)) (va : Nat) :
    Vm.lookup t r va = Vm.lookup s r va :=
  h.tables.lookupFrom_congr h.root rfl fun q path hq => ht q path hq

theorem UserTable.stored {dstva : Nat} (hs : Stored (fun j => phys s r (dstva + j)) bs t s')
    (hw : ∀ j < bs.length, Readable s r (dstva + j)) {q : Nat} {path : List Nat}
    (hq : own q = .table r path) : s'.page (q / PGSIZE) = t.page (q / PGSIZE) := by
  refine hs.page fun j hj heq => ?_
  rw [phys_div] at heq
  refine (h.user _ (hw j hj)).2 path ?_
  have hpa : PTE2PA (Vm.lookup s r (dstva + j)) = q := by
    by_contra hne
    exact div_ne_of_aligned (h.tables.pool hq).1 (PTE2PA_aligned _) hne heq
  rwa [hpa]

/-- The loop of `copyout` has written the first `m` bytes, up to the first page that the user may
not write. -/
theorem copyoutLoop_spec {dstva : Nat} {src : List UInt8} (hfuel : src.length ≤ n)
    (ht : ∀ q path, own q = .table r path → t.page (q / PGSIZE) = s.page (q / PGSIZE)) :
    Wp E (copyoutLoop r n dstva src) t fun done t' => ∃ m ≤ src.length,
      (done = true ↔ m = src.length) ∧ Stored (fun j => phys s r (dstva + j)) (src.take m) t t' ∧
      (∀ j < m, Writable s r (dstva + j)) ∧ (m < src.length → ¬ Writable s r (dstva + m)) := by
  induction n generalizing dstva src t with
  | zero =>
    have hnil : src.length = 0 := Nat.le_zero.mp hfuel
    rw [copyoutLoop, wp_pure]
    exact ⟨0, Nat.zero_le _, by simp [hnil], .nil, by simp, by simp [hnil]⟩
  | succ n ih =>
    rw [copyoutLoop]
    by_cases hnil : src.length = 0
    · rw [if_pos hnil, wp_pure]
      exact ⟨0, Nat.zero_le _, by simp [hnil], .nil, by simp, by simp [hnil]⟩
    rw [if_neg hnil]
    -- nothing can be written at `dstva`
    have hstop : ¬ Writable s r dstva → ∃ m ≤ src.length, (false = true ↔ m = src.length) ∧
        Stored (fun j => phys s r (dstva + j)) (src.take m) t t ∧
        (∀ j < m, Writable s r (dstva + j)) ∧ (m < src.length → ¬ Writable s r (dstva + m)) :=
      fun hw => ⟨0, Nat.zero_le _, by simp [Ne.symm hnil], .nil, by simp, fun _ => hw⟩
    have hmax : MAXVA = 2 ^ 26 * 4096 := by decide
    by_cases hlt : dstva < MAXVA
    · have hdown : ¬ MAXVA ≤ PGROUNDDOWN dstva := by
        rw [PGROUNDDOWN, PGSIZE]
        omega
      have hsame : lookup t r (PGROUNDDOWN dstva) = lookup s r dstva :=
        (h.lookup ht _).trans (lookup_down hlt)
      simp only [if_neg hdown]
      rw [wp_bind, wp_walk_false (Nat.not_le.mp hdown)]
      cases hd : descend t (PGROUNDDOWN dstva) 2 r with
      | none =>
        have hzero : lookup s r dstva = 0 := by
          rw [← hsame]
          exact lookupFrom_none hd
        refine hstop fun hw => not_flag_zero PTE_V ?_
        rw [← hzero]
        exact hw.1.2.1
      | some p =>
        have hword : t.word p (PX 0 (PGROUNDDOWN dstva)) = lookup s r dstva := by
          rw [← hsame]
          exact (lookupFrom_descend hd).symm
        simp only [Option.map_some, wp_bind, wp_get, hword]
        by_cases hflags : ¬ Flag (lookup s r dstva) PTE_V ∨ ¬ Flag (lookup s r dstva) PTE_U ∨
            ¬ Flag (lookup s r dstva) PTE_W
        · rw [if_pos hflags, wp_pure]
          refine hstop fun hw => ?_
          rcases hflags with hv | hu | hw'
          · exact hv hw.1.2.1
          · exact hu hw.1.2.2
          · exact hw' hw.2
        have hw : Writable s r dstva := by
          simp only [not_or, not_not] at hflags
          exact ⟨⟨hlt, hflags.1, hflags.2.1⟩, hflags.2.2⟩
        rw [if_neg hflags, wp_bind, wp_modify]
        rw [sub_down]
        generalize hm : min (PGSIZE - dstva % 4096) src.length = m
        rw [PGSIZE] at hm
        have hpart : ∀ j < (src.take m).length, dstva % 4096 + j < 4096 := by
          intro j hj
          rw [length_take] at hj
          omega
        have hs1 : Stored (fun j => phys s r (dstva + j)) (src.take m) t
            (t.setBytes (PTE2PA (lookup s r dstva) + dstva % 4096) (src.take m)) :=
          (Stored.setBytes _).congr fun j hj => phys_add hlt (hpart j hj)
        have hw1 : ∀ j < (src.take m).length, Writable s r (dstva + j) := fun j hj =>
          (Writable.page (hpart j hj)).mpr hw
        have ht1 := fun q path hq => (h.stored hs1 (fun j hj => (hw1 j hj).1) hq).trans (ht q path hq)
        have hlen : (src.take m).length = m := by
          rw [length_take]
          omega
        have hrest : (src.drop m).length ≤ n := by
          rw [length_drop]
          omega
        refine (ih hrest ht1).mono ?_
        rintro done t' ⟨m', hm', hdone, hs', hw', hnot⟩
        rw [length_drop] at hm' hdone hnot
        have hnext := next_page hlt hm
        refine ⟨m + m', by omega, hdone.trans (by omega), ?_, ?_, ?_⟩
        · rw [take_add]
          refine hs1.append (hs'.congr fun j hj => ?_)
          rw [length_take, length_drop] at hj
          rw [hlen, hnext (by omega), Nat.add_assoc]
        · intro j hj
          by_cases hjm : j < m
          · exact hw1 j (by omega)
          · have := hw' (j - m) (by omega)
            rwa [hnext (by omega), Nat.add_assoc, Nat.add_sub_cancel' (by omega)] at this
        · intro hlt'
          have := hnot (by omega)
          rwa [hnext (by omega), Nat.add_assoc] at this
    · have hdown : MAXVA ≤ PGROUNDDOWN dstva := by
        rw [PGROUNDDOWN, PGSIZE]
        omega
      simp only [if_pos hdown, wp_pure]
      exact hstop fun hw => hlt hw.1.1

end

def userBytes (s : Mem) (r va n : Nat) : List UInt8 :=
  (List.range n).map fun j => s.byte (phys s r (va + j))

theorem userBytes_add (va m n : Nat) :
    userBytes s r va (m + n) = userBytes s r va m ++ userBytes s r (va + m) n := by
  simp only [userBytes, range_add, map_append, map_map, comp_def, Nat.add_assoc]

theorem bytes_eq {m : Nat} (hlt : va < MAXVA) (hm : va % 4096 + m ≤ 4096) :
    s.bytes (PTE2PA (lookup s r va) + va % 4096) m = userBytes s r va m := by
  refine map_congr_left fun j hj => ?_
  rw [phys_add hlt (by have := mem_range.mp hj; omega)]

instance Readable.decidable (s : Mem) (r va : Nat) : Decidable (Readable s r va) :=
  inferInstanceAs (Decidable (_ ∧ _ ∧ _))

instance Writable.decidable (s : Mem) (r va : Nat) : Decidable (Writable s r va) :=
  inferInstanceAs (Decidable (_ ∧ _))

theorem walkaddr_down {Q : Nat → Mem → Prop} : Wp E (walkaddr r (PGROUNDDOWN va)) s Q ↔
    Q (if Readable s r va then PTE2PA (lookup s r va) else 0) s := by
  have hmax : MAXVA = 2 ^ 26 * 4096 := by decide
  have hdown : PGROUNDDOWN va < MAXVA ↔ va < MAXVA := by
    rw [PGROUNDDOWN, PGSIZE]
    omega
  by_cases hva : va < MAXVA
  · rw [wp_walkaddr (hdown.mpr hva), lookup_down hva]
    simp only [Readable, hva, true_and]
  · rw [walkaddr, if_pos (Nat.not_lt.mp (mt hdown.mp hva)), wp_pure, if_neg fun h => hva h.1]

variable {srcva : Nat}

theorem copyinLoop_spec (hpa : ∀ va, Readable s r va → PTE2PA (lookup s r va) ≠ 0)
    {len : Nat} (dst : List UInt8) (hfuel : len ≤ n) :
    Wp E (copyinLoop r n srcva len dst) s fun res s' => s' = s ∧
      ((∀ j < len, Readable s r (srcva + j)) → res = some (dst ++ userBytes s r srcva len)) ∧
      ∀ j < len, ¬ Readable s r (srcva + j) → res = none := by
  induction n generalizing srcva len dst with
  | zero =>
    obtain rfl : len = 0 := Nat.le_zero.mp hfuel
    rw [copyinLoop, wp_pure]
    exact ⟨rfl, fun _ => by simp [userBytes], by simp⟩
  | succ n ih =>
    rw [copyinLoop]
    by_cases hnil : len = 0
    · subst hnil
      rw [if_pos rfl, wp_pure]
      exact ⟨rfl, fun _ => by simp [userBytes], by simp⟩
    rw [if_neg hnil, wp_bind, walkaddr_down]
    by_cases hread : Readable s r srcva
    · rw [if_pos hread, if_neg (hpa _ hread)]
      simp only [wp_bind, wp_get, sub_down]
      generalize hm : min (PGSIZE - srcva % 4096) len = m
      rw [PGSIZE] at hm
      rw [bytes_eq hread.1 (by omega)]
      refine (ih _ (by omega)).mono ?_
      rintro res s' ⟨rfl, hall, hsome⟩
      have hnext := next_page hread.1 hm
      have hpart : ∀ j < m, Readable s' r (srcva + j) := fun j hj =>
        (Readable.page (by omega)).mpr hread
      refine ⟨rfl, ?_, ?_⟩
      · intro h
        have hrest : userBytes s' r srcva len = userBytes s' r srcva m ++
            userBytes s' r ((PGROUNDDOWN srcva + PGSIZE) % 2 ^ 64) (len - m) := by
          by_cases hml : m < len
          · rw [hnext hml, ← userBytes_add, Nat.add_sub_cancel' (by omega)]
          · obtain rfl : m = len := by omega
            simp [userBytes]
        rw [hrest, ← append_assoc]
        refine hall fun j hj => ?_
        rw [hnext (by omega), Nat.add_assoc]
        exact h _ (by omega)
      · intro j hj hnot
        have hjm : ¬ j < m := fun hjm => hnot (hpart j hjm)
        refine hsome (j - m) (by omega) ?_
        rwa [hnext (by omega), Nat.add_assoc, Nat.add_sub_cancel' (by omega)]
    · rw [if_neg hread, if_pos rfl, wp_pure]
      exact ⟨rfl, fun h => absurd (h 0 (by omega)) hread, fun _ _ _ => rfl⟩

theorem strLoop_nul {p : Nat} {dst : List UInt8} (hj : j < n) (hnul : s.byte (p + j) = 0)
    (hfirst : ∀ i < j, s.byte (p + i) ≠ 0) :
    strLoop s n p dst = (dst ++ s.bytes p (j + 1), true) := by
  induction n generalizing p j dst with
  | zero => omega
  | succ n ih =>
    rw [strLoop]
    cases j with
    | zero =>
      rw [Nat.add_zero] at hnul
      rw [if_pos hnul]
      simp [Mem.bytes, hnul]
    | succ j =>
      have h0 := hfirst 0 (by omega)
      rw [Nat.add_zero] at h0
      have hshift : ∀ i, p + 1 + i = p + (i + 1) := by omega
      rw [if_neg h0, ih (j := j) (by omega) (by rw [hshift]; exact hnul)]
      · simp only [Mem.bytes, range_succ_eq_map (n := j + 1), map_cons, map_map,
          comp_def, hshift, Nat.add_zero, append_assoc, singleton_append,
          succ_eq_add_one]
      · intro i hi
        rw [hshift]
        exact hfirst _ (by omega)

theorem strLoop_none {p : Nat} {dst : List UInt8} (h : ∀ i < n, s.byte (p + i) ≠ 0) :
    strLoop s n p dst = (dst ++ s.bytes p n, false) := by
  induction n generalizing p dst with
  | zero => simp [strLoop, Mem.bytes]
  | succ n ih =>
    have h0 := h 0 (by omega)
    rw [Nat.add_zero] at h0
    have hshift : ∀ i, p + 1 + i = p + (i + 1) := by omega
    rw [strLoop, if_neg h0, ih]
    · simp only [Mem.bytes, range_succ_eq_map (n := n), map_cons, map_map,
        comp_def, hshift, Nat.add_zero, append_assoc, singleton_append,
        succ_eq_add_one]
    · intro i hi
      rw [hshift]
      exact h _ (by omega)

/-- The string at an address ends with the byte `j`, and all of it can be read. -/
def EndsAt (s : Mem) (r va j : Nat) : Prop :=
  (∀ i ≤ j, Readable s r (va + i)) ∧ s.byte (phys s r (va + j)) = 0 ∧
    ∀ i < j, s.byte (phys s r (va + i)) ≠ 0

theorem copyinstrLoop_spec (hpa : ∀ va, Readable s r va → PTE2PA (lookup s r va) ≠ 0)
    {max : Nat} (dst : List UInt8) (hfuel : max ≤ n) :
    Wp E (copyinstrLoop r n srcva max dst) s fun res s' => s' = s ∧
      (∀ j < max, EndsAt s r srcva j → res = some (dst ++ userBytes s r srcva (j + 1))) ∧
      ((∀ j < max, ¬ EndsAt s r srcva j) → res = none) := by
  induction n generalizing srcva max dst with
  | zero =>
    obtain rfl : max = 0 := Nat.le_zero.mp hfuel
    rw [copyinstrLoop, wp_pure]
    exact ⟨rfl, by simp, fun _ => rfl⟩
  | succ n ih =>
    rw [copyinstrLoop]
    by_cases hnil : max = 0
    · subst hnil
      rw [if_pos rfl, wp_pure]
      exact ⟨rfl, by simp, fun _ => rfl⟩
    rw [if_neg hnil, wp_bind, walkaddr_down]
    by_cases hread : Readable s r srcva
    · rw [if_pos hread, if_neg (hpa _ hread)]
      simp only [wp_bind, wp_get, sub_down]
      generalize hm : min (PGSIZE - srcva % 4096) max = m
      rw [PGSIZE] at hm
      have hbyte : ∀ j < m, s.byte (PTE2PA (lookup s r srcva) + srcva % 4096 + j) =
          s.byte (phys s r (srcva + j)) := by
        intro j hj
        rw [phys_add hread.1 (by omega)]
      have hpart : ∀ j < m, Readable s r (srcva + j) := fun j hj =>
        (Readable.page (by omega)).mpr hread
      by_cases hnul : ∃ j < m, s.byte (phys s r (srcva + j)) = 0
      · -- the string ends in this page
        obtain ⟨j, ⟨hj, hzero⟩, hfirst⟩ : ∃ j, (j < m ∧ s.byte (phys s r (srcva + j)) = 0) ∧
            ∀ i < j, ¬ (i < m ∧ s.byte (phys s r (srcva + i)) = 0) := by
          classical
          exact ⟨Nat.find hnul, Nat.find_spec hnul, fun i hi => Nat.find_min hnul hi⟩
        have hbefore : ∀ i < j, s.byte (phys s r (srcva + i)) ≠ 0 := fun i hi h0 =>
          hfirst i hi ⟨by omega, h0⟩
        rw [strLoop_nul hj (by rw [hbyte j hj, hzero])
          (fun i hi => by rw [hbyte i (by omega)]; exact hbefore i hi), bytes_eq hread.1 (by omega),
          if_pos rfl, wp_pure]
        refine ⟨rfl, ?_, ?_⟩
        · intro j' _ hend
          have heq : j' = j := by
            rcases Nat.lt_trichotomy j' j with hlt' | heq | hgt
            · exact absurd hend.2.1 (hbefore j' hlt')
            · exact heq
            · exact absurd hzero (hend.2.2 j hgt)
          rw [heq]
        · intro hnone
          exact absurd ⟨fun i hi => hpart i (by omega), hzero, hbefore⟩ (hnone j (by omega))
      · have hnot : ∀ j < m, s.byte (phys s r (srcva + j)) ≠ 0 := fun j hj h0 =>
          hnul ⟨j, hj, h0⟩
        rw [strLoop_none fun i hi => by rw [hbyte i hi]; exact hnot i hi,
          bytes_eq hread.1 (by omega), if_neg (by simp)]
        refine (ih _ (by omega)).mono ?_
        rintro res s' ⟨rfl, hend, hnone⟩
        have hnext := next_page hread.1 hm
        -- the string ends in a page to come
        have hshift : ∀ j < max - m,
            EndsAt s' r ((PGROUNDDOWN srcva + PGSIZE) % 2 ^ 64) j ↔ EndsAt s' r srcva (m + j) := by
          intro j hj
          rw [hnext (by omega)]
          constructor
          · rintro ⟨hrd, hz, hb⟩
            refine ⟨fun i hi => ?_, by rwa [← Nat.add_assoc], fun i hi => ?_⟩
            · by_cases him : i < m
              · exact hpart i him
              · have := hrd (i - m) (by omega)
                rwa [Nat.add_assoc, Nat.add_sub_cancel' (by omega)] at this
            · by_cases him : i < m
              · exact hnot i him
              · have := hb (i - m) (by omega)
                rwa [Nat.add_assoc, Nat.add_sub_cancel' (by omega)] at this
          rintro ⟨hrd, hz, hb⟩
          refine ⟨fun i hi => ?_, by rwa [Nat.add_assoc], fun i hi => ?_⟩
          · rw [Nat.add_assoc]
            exact hrd _ (by omega)
          · rw [Nat.add_assoc]
            exact hb _ (by omega)
        refine ⟨rfl, ?_, ?_⟩
        · intro j hj hends
          have hjm : ¬ j < m := fun hjm => hnot j hjm hends.2.1
          have hj' : m + (j - m) = j := by omega
          rw [hend (j - m) (by omega) ((hshift _ (by omega)).mpr (by rwa [hj'])),
            append_assoc, hnext (by omega), ← userBytes_add]
          congr 3
          omega
        · intro hno
          exact hnone fun j hj hends => hno (m + j) (by omega) ((hshift j hj).mp hends)
    · rw [if_neg hread, if_pos rfl, wp_pure]
      exact ⟨rfl, fun j _ h => absurd (h.1 0 (Nat.zero_le _)) hread, fun _ => rfl⟩

section

variable [Machine] {own : Nat → Owner}

/-- Two memories that have the page table and the pages of the user in common. -/
structure SameUser (own : Nat → Owner) (r : Nat) (s t : Mem) : Prop where
  tables : ∀ q path, own q = .table r path → t.page (q / PGSIZE) = s.page (q / PGSIZE)
  user : ∀ va, Readable s r va →
    t.page (PTE2PA (lookup s r va) / PGSIZE) = s.page (PTE2PA (lookup s r va) / PGSIZE)

section

variable (h : SameUser own r s t) (hu : UserTable own s r)
include h hu

theorem SameUser.readable (va : Nat) : Readable t r va ↔ Readable s r va := by
  rw [Readable, Readable, hu.lookup h.tables va]

theorem SameUser.byte (hr : Readable s r va) : t.byte (phys t r va) = s.byte (phys s r va) := by
  have hphys : phys t r va = phys s r va := by
    rw [phys, phys, hu.lookup h.tables va]
  rw [hphys, Mem.byte, Mem.byte, phys_div, h.user va hr]

theorem SameUser.userBytes
    (hr : ∀ j < n, Readable s r (va + j)) : userBytes t r va n = userBytes s r va n :=
  map_congr_left fun j hj => h.byte hu (hr j (mem_range.mp hj))

theorem SameUser.endsAt : EndsAt t r va j ↔ EndsAt s r va j := by
  rw [EndsAt, EndsAt]
  simp only [h.readable hu]
  refine and_congr_right fun hr => ?_
  rw [h.byte hu (hr j (Nat.le_refl _))]
  refine and_congr_right fun _ => forall₂_congr fun i hi => ?_
  rw [h.byte hu (hr i (by omega))]

theorem SameUser.ne_zero (va : Nat) (hr : Readable t r va) : PTE2PA (lookup t r va) ≠ 0 := by
  rw [hu.lookup h.tables va]
  exact (hu.user va ((h.readable hu va).mp hr)).1

end

omit [Machine] in
theorem SameUser.refl : SameUser own r s s := ⟨fun _ _ _ => rfl, fun _ _ => rfl⟩

/-- The result of `copyin` is the same in all memories with the same pages of the user. -/
theorem copyin_spec (hu : UserTable own s r) (srcva len : Nat) :
    ∃ res, (res.isSome ↔ ∀ j < len, Readable s r (srcva + j)) ∧
      (∀ bs, res = some bs → bs = userBytes s r srcva len) ∧
      ∀ t, SameUser own r s t → copyin r srcva len t = .ok (res, t) := by
  by_cases hall : ∀ j < len, Readable s r (srcva + j)
  · refine ⟨some (userBytes s r srcva len), by simpa using hall, fun bs h => (Option.some.inj h).symm,
      fun t hst => ?_⟩
    obtain ⟨res, t', hrun, rfl, hok, -⟩ := (copyinLoop_spec (E := fun _ => False)
      (hst.ne_zero hu) [] (Nat.le_refl len)).total
    rw [hok fun j hj => (hst.readable hu _).mpr (hall j hj), nil_append,
      hst.userBytes hu hall] at hrun
    exact hrun
  refine ⟨none, by simpa using hall, by simp, fun t hst => ?_⟩
  obtain ⟨j, hj, hnot⟩ : ∃ j, j < len ∧ ¬ Readable s r (srcva + j) := by
    simpa only [not_forall, exists_prop] using hall
  obtain ⟨res, t', hrun, rfl, -, hfail⟩ := (copyinLoop_spec (E := fun _ => False)
    (hst.ne_zero hu) [] (Nat.le_refl len)).total
  rw [hfail j hj fun hr => hnot ((hst.readable hu _).mp hr)] at hrun
  exact hrun

theorem copyinstr_spec (hu : UserTable own s r) (srcva max : Nat) :
    ∃ res, (∀ bs, res = some bs ↔
        ∃ j < max, EndsAt s r srcva j ∧ bs = userBytes s r srcva (j + 1)) ∧
      ∀ t, SameUser own r s t → copyinstr r srcva max t = .ok (res, t) := by
  by_cases hend : ∃ j < max, EndsAt s r srcva j
  · obtain ⟨j, hj, hends⟩ := hend
    refine ⟨some (userBytes s r srcva (j + 1)), fun bs => ?_, fun t hst => ?_⟩
    · constructor
      · intro h
        exact ⟨j, hj, hends, (Option.some.inj h).symm⟩
      · rintro ⟨j', -, hends', rfl⟩
        rcases Nat.lt_trichotomy j' j with hlt | rfl | hgt
        · exact absurd hends'.2.1 (hends.2.2 j' hlt)
        · rfl
        · exact absurd hends.2.1 (hends'.2.2 j hgt)
    · obtain ⟨res, t', hrun, rfl, hok, -⟩ := (copyinstrLoop_spec (E := fun _ => False)
        (hst.ne_zero hu) [] (Nat.le_refl max)).total
      rw [hok j hj ((hst.endsAt hu).mpr hends), nil_append,
        hst.userBytes hu fun i hi => hends.1 i (by omega)] at hrun
      exact hrun
  · refine ⟨none, fun bs => ?_, fun t hst => ?_⟩
    · constructor
      · intro h
        cases h
      · rintro ⟨j, hj, hends, -⟩
        exact absurd ⟨j, hj, hends⟩ hend
    · obtain ⟨res, t', hrun, rfl, -, hfail⟩ := (copyinstrLoop_spec (E := fun _ => False)
        (hst.ne_zero hu) [] (Nat.le_refl max)).total
      rw [hfail fun j hj hends => hend ⟨j, hj, (hst.endsAt hu).mp hends⟩] at hrun
      exact hrun

/-- `copyout` writes all bytes or a beginning of them. -/
theorem copyout_spec (h : UserTable own s r) (dstva : Nat) (src : List UInt8) :
    Wp E (copyout r dstva src) s fun done s' =>
      (done = true ↔ ∀ j < src.length, Writable s r (dstva + j)) ∧
      (done = true → Stored (fun j => phys s r (dstva + j)) src s s') ∧
      (done = false → ∃ m < src.length, (∀ j < m, Writable s r (dstva + j)) ∧
        Stored (fun j => phys s r (dstva + j)) (src.take m) s s') ∧
      s'.freelist = s.freelist ∧
      ∀ q, q % PGSIZE = 0 → (∀ va, Writable s r va → PTE2PA (lookup s r va) ≠ q) →
        s'.page (q / PGSIZE) = s.page (q / PGSIZE) := by
  refine (copyoutLoop_spec h (Nat.le_refl src.length) (t := s) fun _ _ _ => rfl).mono ?_
  rintro done s' ⟨m, hm, hdone, hs, hw, hnot⟩
  refine ⟨?_, ?_, ?_, hs.freelist, ?_⟩
  · rw [hdone]
    constructor
    · rintro rfl
      exact hw
    · intro hall
      by_contra hne
      exact hnot (by omega) (hall m (by omega))
  · intro hd
    rwa [hdone.mp hd, take_length] at hs
  · intro hd
    refine ⟨m, ?_, hw, hs⟩
    have : m ≠ src.length := fun heq => by
      rw [hdone.mpr heq] at hd
      cases hd
    omega
  intro q hq huser
  refine hs.page fun j hj heq => ?_
  rw [length_take] at hj
  rw [phys_div] at heq
  refine div_ne_of_aligned hq (PTE2PA_aligned _) ?_ heq
  exact huser _ (hw j (by omega))

/-- Copies to and from the user. `copyout` returns 0 just if the user may write every page of the
range, and has then written the bytes at their places; otherwise it has written a beginning of them.
`copyin` and `copyinstr` return 0 just if the user may read every page, for a string up to its NUL
among the first `max` bytes. No page is touched that is not the user's. -/
theorem user_copies_exact (h : UserTable own s r) :
    (∀ dstva src, ∃ done s', copyout r dstva src s = .ok (done, s') ∧
      (done = true ↔ ∀ j < src.length, Writable s r (dstva + j)) ∧
      (done = true → Stored (fun j => phys s r (dstva + j)) src s s') ∧
      (done = false → ∃ m < src.length, (∀ j < m, Writable s r (dstva + j)) ∧
        Stored (fun j => phys s r (dstva + j)) (src.take m) s s') ∧
      ∀ q, q % PGSIZE = 0 → (∀ va, Writable s r va → PTE2PA (lookup s r va) ≠ q) →
        s'.page (q / PGSIZE) = s.page (q / PGSIZE)) ∧
    (∀ srcva len, ∃ res, copyin r srcva len s = .ok (res, s) ∧
      (res.isSome ↔ ∀ j < len, Readable s r (srcva + j)) ∧
      (∀ bs, res = some bs → bs = userBytes s r srcva len) ∧
      ∀ t, SameUser own r s t → copyin r srcva len t = .ok (res, t)) ∧
    ∀ srcva max, ∃ res, copyinstr r srcva max s = .ok (res, s) ∧
      (∀ bs, res = some bs ↔
        ∃ j < max, EndsAt s r srcva j ∧ bs = userBytes s r srcva (j + 1)) ∧
      ∀ t, SameUser own r s t → copyinstr r srcva max t = .ok (res, t) := by
  refine ⟨?_, ?_, ?_⟩
  · intro dstva src
    obtain ⟨done, s', hrun, hdone, hall, hpart, -, hframe⟩ :=
      (copyout_spec (E := fun _ => False) h dstva src).total
    exact ⟨done, s', hrun, hdone, hall, hpart, hframe⟩
  · intro srcva len
    obtain ⟨res, hsome, hbytes, hrun⟩ := copyin_spec h srcva len
    exact ⟨res, hrun s .refl, hsome, hbytes, hrun⟩
  · intro srcva max
    obtain ⟨res, hres, hrun⟩ := copyinstr_spec h srcva max
    exact ⟨res, hrun s .refl, hres, hrun⟩

theorem Space.readable (h : Space own s r n)
    (habove : ∀ va < MAXVA, TRAPFRAME ≤ va → ¬ Readable s r va) (hr : Readable s r va) :
    va < n * 4096 ∧ own (PTE2PA (lookup s r va)) = .user r (va / 4096) ∧
      Pool (PTE2PA (lookup s r va)) := by
  have hlow : va < TRAPFRAME := Nat.lt_of_not_le fun hle => habove va hr.1 hle hr
  have hin : va < n * 4096 := by
    rw [← h.isSome_iff hlow, Option.isSome_iff_ne_none, ne_eq, mapping_eq_none]
    exact not_not.mpr hr.2.1
  obtain ⟨pte, hpte, -, hown, hpool⟩ := h.mapping_some hin
  rw [(mapping_eq_some.mp hpte).2]
  exact ⟨hin, hown, hpool⟩

theorem Space.userTable (h : Space own s r n) (ht : Tables own s)
    (habove : ∀ va < MAXVA, TRAPFRAME ≤ va → ¬ Readable s r va) : UserTable own s r := by
  refine ⟨ht, h.root, fun va hr => ?_⟩
  obtain ⟨-, hown, hpool⟩ := h.readable habove hr
  refine ⟨hpool.ne_zero, fun path => ?_⟩
  rw [hown]
  simp

variable {tf : Nat}

/-- The trampoline and the trapframe are not for the user. -/
theorem Image.not_readable (h : Image own s r n tf) (hva : va < MAXVA)
    (hle : TRAPFRAME ≤ va) : ¬ Readable s r va := by
  have hpos := top_pages
  rintro ⟨-, -, hu⟩
  have hentry : ∀ pa perm, perm < 1024 → ¬ Flag perm PTE_U →
      mapping s r (va / 4096 * 4096) ≠ some (entry pa perm) := by
    intro pa perm hperm hno heq
    rw [← mapping_page (by omega)] at heq
    rw [(mapping_eq_some.mp heq).2] at hu
    exact hno ((flag_entry (k := 4) hperm (by decide) (by decide)).mp hu)
  have hpage : va / 4096 * 4096 = TRAMPOLINE ∨ va / 4096 * 4096 = TRAPFRAME := by omega
  rcases hpage with hpage | hpage
  · refine hentry Machine.trampoline (PTE_R ||| PTE_X) (by decide) (by decide) ?_
    rw [hpage]
    exact h.trampoline
  · refine hentry tf (PTE_R ||| PTE_W) (by decide) (by decide) ?_
    rw [hpage]
    exact h.trapframe

variable (h : Image own s r n tf) (ht : Tables own s)
include h ht

theorem Image.userTable : UserTable own s r :=
  h.space.userTable ht fun _ hva hle => h.not_readable hva hle

/-- The pages of the user of a tree. -/
def Owner.User (r : Nat) (o : Owner) : Prop := ∃ k, o = .user r k

omit h ht in
omit [Machine] in
theorem Owner.User.data {o : Owner} (h : o.User r) : o.Data := by
  obtain ⟨k, rfl⟩ := h
  simp [Owner.Data]

/-- `copyout` to a process writes to its pages only. -/
theorem Image.copyout (dstva : Nat) (src : List UInt8) :
    Wp E (Vm.copyout r dstva src) s fun _ s' => Touches (Owner.User r) own s s' := by
  refine (copyout_spec (h.userTable ht) dstva src).mono ?_
  rintro done s' ⟨-, -, -, hfree, hpage⟩
  refine ⟨hfree, fun q hq hm => hpage q hq fun va hw heq => hm ?_⟩
  rw [← heq]
  exact ⟨_, (h.space.readable (fun _ hva hle => h.not_readable hva hle) hw.1).2.1⟩

theorem Image.copyin {len : Nat} : Wp E (Vm.copyin r srcva len) s fun _ s' => s' = s := by
  obtain ⟨res, -, -, hrun⟩ := copyin_spec (h.userTable ht) srcva len
  exact .of_ok (hrun s .refl) rfl

theorem Image.copyinstr {max : Nat} :
    Wp E (Vm.copyinstr r srcva max) s fun res s' => s' = s ∧
      ∀ bs, res = some bs → bs.length ≤ max := by
  obtain ⟨res, hres, hrun⟩ := copyinstr_spec (h.userTable ht) srcva max
  refine .of_ok (hrun s .refl) ⟨rfl, fun bs hbs => ?_⟩
  obtain ⟨j, hj, -, rfl⟩ := (hres bs).mp hbs
  simp only [userBytes, length_map, length_range]
  omega

end

/-- Four bytes are written across the border between two pages. -/
theorem user_copies_exact_border : ∃ s s' r, copyout r 4094 [1, 2, 3, 4] s = .ok (true, s') ∧
    s'.byte (phys s r 4097) = 4 := by
  obtain ⟨own₀, s₀, own, s, -, hempty, -, -, hg⟩ := createAlloc_parts 8192 PTE_W
    (PHYSTOP - PGSIZE) (by decide) (by decide) (by decide) (by decide +kernel)
  let := smallMachine
  have hmax := TRAPFRAME_lt
  have hmaxva : MAXVA < 2 ^ 39 := MAXVA_lt
  have hnum : 8192 < MAXVA ∧ pages 0 = 0 ∧ pages 8192 = 2 ∧ 8192 < TRAPFRAME := by decide
  rw [hnum.2.1, hnum.2.2.1] at hg
  have hw : ∀ va < 8192, Writable s (PHYSTOP - PGSIZE) va := by
    intro va hva
    obtain ⟨pte, hpte, ⟨hflags, -⟩, -⟩ := hg.new (va / 4096) (Nat.zero_le _) (by omega)
    rw [← mapping_page (by omega)] at hpte
    obtain ⟨hv, hlook⟩ := mapping_eq_some.mp hpte
    have hflag : ∀ k < 10, Flag (PTE_R ||| PTE_U ||| PTE_W ||| PTE_V) (2 ^ k) → Flag pte (2 ^ k) := by
      intro k hk hf
      rwa [← flag_flags hk, hflags]
    refine ⟨⟨by omega, ?_, ?_⟩, ?_⟩
    · rwa [hlook]
    · rw [hlook]
      exact hflag 4 (by decide) (by decide)
    · rw [hlook]
      exact hflag 2 (by decide) (by decide)
  have hu : UserTable own s (PHYSTOP - PGSIZE) := by
    refine hg.space.userTable hg.grows.tables fun va hva hle hr => ?_
    have hnone : mapping s₀ (PHYSTOP - PGSIZE) va = none := by
      rw [mapping_eq_none, hempty]
      exact not_flag_zero _
    rw [← hg.same va (by omega) (by omega), mapping_eq_none] at hnone
    exact hnone hr.2.1
  obtain ⟨done, s', hrun, hdone, hstored, -⟩ := (user_copies_exact hu).1 4094 [1, 2, 3, 4]
  obtain rfl : done = true := hdone.mpr fun j hj => hw _ (by
    simp only [length_cons, length_nil] at hj
    omega)
  refine ⟨s, s', _, hrun, (hstored rfl).stored 3 4 rfl fun j' hlt hj' => ?_⟩
  simp only [length_cons, length_nil] at hj'
  omega

/-- A page table with a user page that is page 0 and another one that is the page-table page in which
the next entry is. -/
def oddTable : Mem :=
  ((((blank.setWord 8192 0 (PA2PTE 12288 ||| PTE_V)).setWord 12288 0 (PA2PTE 16384 ||| PTE_V)).setWord
    16384 0 (PA2PTE 0 ||| PTE_R ||| PTE_U ||| PTE_V)).setWord
    16384 510 (PA2PTE 16384 ||| PTE_R ||| PTE_W ||| PTE_U ||| PTE_V)).setWord
    16384 511 (PA2PTE 20480 ||| PTE_R ||| PTE_W ||| PTE_U ||| PTE_V)

/-- `copyin` takes a page at 0 for a page that is missing, and `copyout` can remove the mapping of its
own range. -/
theorem copies_odd_table :
    (Readable oddTable 8192 0 ∧ ∃ s', copyin 8192 0 1 oddTable = .ok (none, s')) ∧
    (∀ j < 16, Writable oddTable 8192 (510 * 4096 + 4088 + j)) ∧
    ∃ s', copyout 8192 (510 * 4096 + 4088) (List.replicate 16 0) oddTable = .ok (false, s') :=
  ⟨⟨by decide +kernel, ok_of_toOption (by decide +kernel)⟩, by decide +kernel,
    ok_of_toOption (by decide +kernel)⟩

end Xv6.Vm
