import Xv6.Kernel.Vm.Copy

namespace Xv6.Vm

open Hoare List Option

/-- What a user may find at an address: the flags of the page and the byte. -/
def view (s : Mem) (r va : Nat) : Option (Nat × UInt8) :=
  (mapping s r va).map fun pte => (PTE_FLAGS pte, s.byte (PTE2PA pte + va % PGSIZE))

/-- The bytes `bs` in place of what was at the addresses from `dst` on. -/
def overwrite (f : Nat → Option (Nat × UInt8)) (dst : Nat) (bs : List UInt8) (va : Nat) :
    Option (Nat × UInt8) :=
  if dst ≤ va ∧ va < dst + bs.length then (f va).map fun x => (x.1, bs.getD (va - dst) 0) else f va

/-- Pages of zeros from page `n` up to page `k`. -/
def grow (f : Nat → Option (Nat × UInt8)) (n k xperm va : Nat) : Option (Nat × UInt8) :=
  if va < n * 4096 then f va
  else if va < k * 4096 then some (PTE_R ||| PTE_U ||| xperm ||| PTE_V, 0)
  else none

/-- Page `k` is taken away from the user. -/
def hide (f : Nat → Option (Nat × UInt8)) (k va : Nat) : Option (Nat × UInt8) :=
  if va / 4096 = k then (f va).map fun x => (x.1 &&& (2 ^ 64 - 1 - PTE_U), x.2) else f va

section

variable [Machine] {own own' : Nat → Owner} {m m' : Mem} {r n k p tf va : Nat} {M : Owner → Prop}

section

omit [Machine]

theorem Mem.byte_add (hp : p % PGSIZE = 0) (o : Fin PGSIZE) :
    m.byte (p + o) = m.page (p / PGSIZE) o := by
  have hdiv : (p + o) / PGSIZE = p / PGSIZE ∧ (p + o) % PGSIZE = o := by
    have ho := o.isLt
    generalize (o : Nat) = x at *
    rw [PGSIZE] at *
    omega
  simp only [byte, hdiv.1, hdiv.2]

theorem Mem.byte_congr {a : Nat} (hp : p % PGSIZE = 0)
    (h : m'.page (p / PGSIZE) = m.page (p / PGSIZE)) (ha : a < PGSIZE) :
    m'.byte (p + a) = m.byte (p + a) := by
  have h1 := Mem.byte_add (m := m') hp ⟨a, ha⟩
  have h2 := Mem.byte_add (m := m) hp ⟨a, ha⟩
  simp only at h1 h2
  rw [h1, h2, h]

theorem view_congr {r' : Nat} (h : mapping m' r' va = mapping m r va)
    (hpage : ∀ pte, mapping m r va = some pte →
      m'.page (PTE2PA pte / PGSIZE) = m.page (PTE2PA pte / PGSIZE)) :
    view m' r' va = view m r va := by
  rw [view, view, h]
  cases hpte : mapping m r va with
  | none => rfl
  | some pte =>
    simp only [map_some, some.injEq, Prod.mk.injEq, true_and]
    exact Mem.byte_congr (PTE2PA_aligned _) (hpage pte hpte) (Nat.mod_lt _ (by decide))

end

theorem Space.view_other (h : Space own m r n) (ht : Tables own m) (hl : Local M own own' m m')
    (htable : ∀ path, ¬ M (.table r path)) (huser : ∀ k, ¬ M (.user r k)) (hva : va < TRAPFRAME) :
    view m' r va = view m r va := by
  refine view_congr (hl.mapping ht h.root htable va) fun pte hpte => ?_
  have hlt : va < n * 4096 := by
    rw [← h.isSome_iff hva, hpte]
    rfl
  obtain ⟨pte', hpte', -, hown, -⟩ := h.mapping_some hlt
  rw [hpte] at hpte'
  cases hpte'
  refine hl.frame _ (PTE2PA_aligned _) ?_
  rw [hown]
  exact huser _

theorem Space.view_none (h : Space own m r n) (hle : n * 4096 ≤ va) (hva : va < TRAPFRAME) :
    view m r va = none := by
  rw [view, h.mapping_none hle hva, map_none]

theorem Grown.view {xperm : Nat} (h : Grown (Zeroed xperm) r n k own own' m m')
    (h0 : Space own m r n) (hva : va < TRAPFRAME) :
    view m' r va = grow (view m r) n k xperm va := by
  have hmax := TRAPFRAME_lt
  rw [grow]
  split_ifs with hold hnew
  · obtain ⟨pte, hpte, -⟩ := h0.mapping_some hold
    obtain ⟨hpte', hpage⟩ := h.contents h0 hold hpte
    refine view_congr (hpte'.trans hpte.symm) fun pte' h' => ?_
    rw [hpte] at h'
    cases h'
    exact hpage
  · obtain ⟨pte, hpte, ⟨hflags, hzero⟩, -⟩ := h.new (va / 4096) (by omega) (by omega)
    rw [← mapping_page (by omega)] at hpte
    have hbyte := Mem.byte_add (m := m') (PTE2PA_aligned pte)
      ⟨va % PGSIZE, Nat.mod_lt _ (by decide)⟩
    simp only at hbyte
    rw [Vm.view, hpte, map_some, hflags, hbyte, hzero]
  · exact h.space.view_none (Nat.not_lt.mp hnew) hva

omit [Machine] in
theorem phys_eq {pte : Nat} (h : mapping m r va = some pte) :
    phys m r va = PTE2PA pte + va % PGSIZE := by
  rw [phys, (mapping_eq_some.mp h).2]

theorem Space.phys_inj (h : Space own m r n) {va' : Nat} (hlt : va < n * 4096)
    (hlt' : va' < n * 4096) (heq : phys m r va = phys m r va') : va = va' := by
  obtain ⟨pte, hpte, -⟩ := h.mapping_some hlt
  obtain ⟨pte', hpte', -⟩ := h.mapping_some hlt'
  rw [phys_eq hpte, phys_eq hpte'] at heq
  have ha := PTE2PA_aligned pte
  have ha' := PTE2PA_aligned pte'
  have hpage := h.inj hlt hlt' hpte hpte'
  rw [PGSIZE] at *
  have hsame : PTE2PA pte = PTE2PA pte' := by omega
  have := hpage hsame
  omega

theorem Space.view_stored {dst : Nat} {bs : List UInt8} (h : Space own m r n)
    (ht : Touches (Owner.User r) own m m') (htab : Tables own m)
    (hs : Stored (fun j => phys m r (dst + j)) bs m m') (hend : ∀ j < bs.length, dst + j < n * 4096)
    (hva : va < TRAPFRAME) : view m' r va = overwrite (view m r) dst bs va := by
  have hmap : mapping m' r va = mapping m r va := ht.mapping htab (fun _ h => h.data) h.root va
  rw [overwrite, view, view, hmap]
  by_cases hlt : va < n * 4096
  · obtain ⟨pte, hpte, -⟩ := h.mapping_some hlt
    simp only [hpte, map_some, ← phys_eq hpte]
    split_ifs with hin
    · have hj : va - dst < bs.length := by omega
      have hva' : dst + (va - dst) = va := by omega
      have := hs.stored (va - dst) bs[va - dst] (getElem?_eq_getElem hj) fun j hlo hhi heq => by
        have := h.phys_inj (hend j hhi) (by omega) heq
        omega
      rw [hva'] at this
      rw [this, getD_eq_getElem _ _ hj]
    · rw [hs.kept]
      intro j hj heq
      have := h.phys_inj (hend j hj) hlt heq
      omega
  · rw [h.mapping_none (Nat.not_lt.mp hlt) hva]
    split_ifs <;> rfl

section

omit [Machine]

theorem writable_of_view {fl : Nat} {b : UInt8} (h : view m r va = some (fl, b)) (hva : va < MAXVA)
    (hu : Flag fl PTE_U) (hw : Flag fl PTE_W) : Writable m r va := by
  obtain ⟨pte, hpte, heq⟩ := Option.map_eq_some_iff.mp h
  obtain ⟨rfl, -⟩ := Prod.mk.inj heq
  obtain ⟨hv, rfl⟩ := mapping_eq_some.mp hpte
  exact ⟨⟨hva, hv, (flag_flags (k := 4) (by decide)).mp hu⟩, (flag_flags (k := 2) (by decide)).mp hw⟩

theorem view_byte {fl : Nat} {b : UInt8} (h : view m r va = some (fl, b)) :
    m.byte (phys m r va) = b := by
  obtain ⟨pte, hpte, heq⟩ := Option.map_eq_some_iff.mp h
  rw [phys_eq hpte]
  exact (Prod.mk.inj heq).2

theorem userBytes_eq {bs : List UInt8} (hn : bs.length = n)
    (h : ∀ j < n, ∃ fl, view m r (va + j) = some (fl, bs.getD j 0)) : userBytes m r va n = bs := by
  refine ext_getElem (by simp [userBytes, hn]) fun j hj hj' => ?_
  obtain ⟨fl, hview⟩ := h j (hn ▸ hj')
  rw [getD_eq_getElem _ _ hj'] at hview
  simp only [userBytes, getElem_map, getElem_range]
  exact view_byte hview

end

end

section

variable {f g : Nat → Option (Nat × UInt8)} {bs bs' : List UInt8} {dst va : Nat}

theorem overwrite_in (hle : dst ≤ va) (hlt : va < dst + bs.length) :
    overwrite f dst bs va = (f va).map fun x => (x.1, bs.getD (va - dst) 0) :=
  if_pos ⟨hle, hlt⟩

theorem overwrite_out (h : va < dst ∨ dst + bs.length ≤ va) : overwrite f dst bs va = f va :=
  if_neg fun hin => by omega

theorem overwrite_nil : overwrite f dst [] va = f va := overwrite_out (by simp; omega)

theorem overwrite_append :
    overwrite (overwrite f dst bs) (dst + bs.length) bs' va = overwrite f dst (bs ++ bs') va := by
  by_cases hlo : va < dst + bs.length
  · rw [overwrite_out (.inl hlo)]
    by_cases hle : dst ≤ va
    · rw [overwrite_in hle hlo, overwrite_in hle (by rw [length_append]; omega),
        getD_append _ _ _ _ (by omega)]
    · rw [overwrite_out (.inl (Nat.not_le.mp hle)), overwrite_out (.inl (Nat.not_le.mp hle))]
  by_cases hhi : va < dst + bs.length + bs'.length
  · rw [overwrite_in (by omega) hhi, overwrite_out (.inr (by omega)),
      overwrite_in (by omega) (by rw [length_append]; omega),
      getD_append_right _ _ _ _ (by omega), Nat.sub_sub]
  · rw [overwrite_out (.inr (by omega)), overwrite_out (.inr (by omega)),
      overwrite_out (.inr (by rw [length_append]; omega))]

theorem overwrite_congr (h : f va = g va) : overwrite f dst bs va = overwrite g dst bs va := by
  rw [overwrite, overwrite, h]

theorem grow_congr {n k xperm : Nat} (h : f va = g va) :
    grow f n k xperm va = grow g n k xperm va := by
  rw [grow, grow, h]

end

end Xv6.Vm
