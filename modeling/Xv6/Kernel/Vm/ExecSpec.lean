import Xv6.Kernel.Vm.Exec
import Xv6.Kernel.Vm.View

namespace Xv6.Vm

open ByteCodec Hoare List Nat

variable [Machine] {own own₀ : Nat → Owner} {s s₀ : Mem} {r n tf : Nat} {E : Stop → Prop}

/-- A new address space is being made. -/
structure Building (own₀ own : Nat → Owner) (s₀ s : Mem) (r n tf : Nat) : Prop where
  heap : Heap own s
  image : Image own s r n tf
  loc : Local (Owner.Tree r) own₀ own s₀ s

variable {s' : Mem}

theorem Building.touches (h : Building own₀ own s₀ s r n tf)
    (ht : Touches (Owner.User r) own s s') : Building own₀ own s₀ s' r n tf := by
  refine ⟨h.heap.touches ht fun _ h => h.data, h.image.touches ht h.heap.tables fun _ h => h.data,
    h.loc.trans (ht.isLocal.mono ?_)⟩
  rintro _ ⟨k, rfl⟩
  exact .user k

/-- What `exec` has done: nothing, or a new address space. -/
def Executed (own₀ : Nat → Owner) (s₀ : Mem) (tf : Nat) (res : Option Loaded) (s : Mem) : Prop :=
  match res with
  | none => Heap own₀ s ∧ Local (· = .free) own₀ own₀ s₀ s
  | some l => l.pagetable ≠ 0 ∧ own₀ l.pagetable = .free ∧
      ∃ own, Building own₀ own s₀ s l.pagetable (pages l.sz) tf

variable {sz : Nat}

theorem execBad_spec (h0 : Heap own₀ s₀) (hr : own₀ r = .free)
    (h : Building own₀ own s₀ s r (pages sz) tf) :
    Wp E (execBad r sz) s fun res s' => Executed own₀ s₀ tf res s' ∧ res = none := by
  rw [execBad]
  refine (procFreepagetable_spec h.heap h.image).bind ?_
  rintro _ s' ⟨own', hg⟩
  obtain ⟨heq, hl⟩ := h0.undo hr h.loc hg
  subst heq
  rw [wp_pure]
  exact ⟨⟨⟨hg.kmem, hg.tables, h0.user⟩, hl⟩, rfl⟩

/-- All pages can be used by the user. -/
def AllUser (s : Mem) (r n : Nat) : Prop :=
  ∀ va < n * 4096, ∃ pte, mapping s r va = some pte ∧ Flag pte PTE_U

variable {k : Nat} {ip : List UInt8}

section

omit [Machine]

theorem setBytes_touches {pa : Nat} {bs : List UInt8} (hpa : pa % PGSIZE = 0)
    (hown : own pa = .user r k) (hlen : bs.length ≤ 4096) :
    Touches (Owner.User r) own s (s.setBytes pa bs) := by
  refine ⟨rfl, fun q hq hm => (Stored.setBytes pa).page fun j hj heq => hm ?_⟩
  have hqp : q = pa := by
    rw [PGSIZE] at *
    omega
  rw [hqp]
  exact ⟨k, hown⟩

theorem readi_length (ip : List UInt8) (off n : Nat) : (readi ip off n).length ≤ n := by
  rw [readi]
  split_ifs
  · exact Nat.zero_le _
  · exact length_take_le ..

theorem readi_whole {off n : Nat} (h : off + n ≤ ip.length)
    (hlen : ip.length < 2 ^ 32) : readi ip off n = (ip.drop off).take n :=
  if_neg (by omega)

end

section

variable (h : Building own₀ own s₀ s r n tf)
include h

/-- The loop of `loadseg` writes to pages of the user, and it writes the bytes of the file if they
are there. -/
theorem loadsegLoop_spec {va offset m i : Nat} (hu : AllUser s r n) (hva : va % 4096 = 0)
    (hi : i % 4096 = 0) (hm : m = (sz + 4095) / 4096 - i / 4096) (hend : va + sz ≤ n * 4096) :
    Wp E (loadsegLoop r va ip offset sz m i) s fun done s' => Touches (Owner.User r) own s s' ∧
      (offset + sz ≤ ip.length → ip.length < 2 ^ 32 → done = true ∧ ∀ a < TRAPFRAME,
        view s' r a = overwrite (view s r) (va + i) ((ip.drop (offset + i)).take (sz - i)) a) := by
  induction m generalizing s i with
  | zero =>
    rw [loadsegLoop, wp_pure]
    refine ⟨.refl, fun _ _ => ⟨rfl, fun a _ => ?_⟩⟩
    rw [show sz - i = 0 by omega, take_zero, overwrite_nil]
  | succ m ih =>
    have hbound := h.image.space.bound
    have hmax := TRAPFRAME_lt
    have hmax' := TRAPFRAME_le
    have hlt : va + i < n * 4096 := by omega
    have hmod : (va + i) % 2 ^ 64 = va + i := by omega
    obtain ⟨pte, hpte, hflag⟩ := hu _ hlt
    obtain ⟨pte', hpte', -, hown, hpool⟩ := h.image.space.mapping_some hlt
    rw [hpte] at hpte'
    cases hpte'
    obtain ⟨hv, hlook⟩ := mapping_eq_some.mp hpte
    rw [loadsegLoop, wp_bind, hmod, wp_walkaddr (by omega), hlook]
    simp only [hv, hflag, and_self, if_true, if_neg hpool.ne_zero, wp_bind, wp_modify]
    generalize hn : (if sz - i < PGSIZE then sz - i else PGSIZE) = n'
    have hmin : n' = min (sz - i) 4096 := by
      rw [← hn, PGSIZE]
      split_ifs <;> omega
    have hle : n' ≤ 4096 := by omega
    generalize hbs : readi ip ((offset + i) % 2 ^ 32) n' = bs
    have hlen : bs.length ≤ n' := hbs ▸ readi_length ..
    have ht : Touches (Owner.User r) own s (s.setBytes (PTE2PA pte) bs) :=
      setBytes_touches hpool.1 hown (by omega)
    have hview : ∀ a < TRAPFRAME, view (s.setBytes (PTE2PA pte) bs) r a =
        overwrite (view s r) (va + i) bs a := by
      refine fun a ha => h.image.space.view_stored ht h.heap.tables ?_ (fun j hj => by omega) ha
      refine (Stored.setBytes _).congr fun j hj => ?_
      rw [phys_add (by omega) (by omega), hlook]
      omega
    have hfile : offset + sz ≤ ip.length → ip.length < 2 ^ 32 →
        bs = (ip.drop (offset + i)).take n' ∧ bs.length = n' := by
      intro hin hsmall
      have : bs = (ip.drop (offset + i)).take n' := by
        rw [← hbs, mod_eq_of_lt (by omega), readi_whole (by omega) hsmall]
      refine ⟨this, ?_⟩
      rw [this, length_take, length_drop]
      omega
    rw [wp_ite]
    split_ifs with hshort
    · exact ⟨ht, fun hin hsmall => absurd (hfile hin hsmall).2 hshort⟩
    have hu' : AllUser (s.setBytes (PTE2PA pte) bs) r n := by
      intro va' hva'
      rw [ht.mapping h.heap.tables (fun _ h => h.data) h.image.space.root]
      exact hu va' hva'
    rw [PGSIZE]
    refine (ih (h.touches ht) hu' (by omega) (by omega)).mono ?_
    rintro done s' ⟨ht', hdone⟩
    refine ⟨ht.trans ht', fun hin hsmall => ?_⟩
    obtain ⟨htrue, hview'⟩ := hdone hin hsmall
    obtain ⟨hbytes, hlen'⟩ := hfile hin hsmall
    refine ⟨htrue, fun a ha => ?_⟩
    rw [hview' a ha, overwrite_congr (hview a ha)]
    -- the rest follows a whole page, or there is no rest
    by_cases hlast : sz - i ≤ 4096
    · rw [show sz - (i + 4096) = 0 by omega, take_zero, overwrite_nil, hbytes,
        show n' = sz - i by omega]
    · have happ : (ip.drop (offset + i)).take (sz - i) =
          bs ++ (ip.drop (offset + (i + 4096))).take (sz - (i + 4096)) := by
        rw [hbytes, show n' = 4096 by omega, show sz - i = 4096 + (sz - (i + 4096)) by omega,
          take_add, drop_drop, Nat.add_assoc]
      rw [happ, ← overwrite_append, show bs.length = 4096 by omega, Nat.add_assoc]

theorem loadseg_spec {va offset : Nat} (hu : AllUser s r n) (hva : va % 4096 = 0)
    (hend : va + sz ≤ n * 4096) :
    Wp E (loadseg r va ip offset sz) s fun done s' =>
      Building own₀ own s₀ s' r n tf ∧ AllUser s' r n ∧
      (offset + sz ≤ ip.length → ip.length < 2 ^ 32 → done = true ∧ ∀ a < TRAPFRAME,
        view s' r a = overwrite (view s r) va ((ip.drop offset).take sz) a) := by
  rw [loadseg]
  refine (loadsegLoop_spec h hu hva (i := 0) rfl (by rw [PGSIZE]; omega) hend).mono ?_
  rintro done s' ⟨ht, hdone⟩
  refine ⟨h.touches ht, fun va' hva' => ?_, hdone⟩
  rw [ht.mapping h.heap.tables (fun _ h => h.data) h.image.space.root]
  exact hu va' hva'

omit h in
omit [Machine] in
theorem flags2perm_lt (flags : Nat) : flags2perm flags < 1024 := by
  rw [flags2perm]
  split_ifs <;> decide

theorem Building.grown {New : Nat → Nat → Page → Prop} {own' : Nat → Owner}
    (hg : Grown New r n k own own' s s') : Building own₀ own' s₀ s' r k tf :=
  ⟨h.heap.grown hg, h.image.grown hg, h.loc.trans hg.grows.isLocal⟩

end

theorem AllUser.grown {own' : Nat → Owner} {xperm : Nat} (hu : AllUser s r n)
    (hg : Grown (Zeroed xperm) r n k own own' s s') : AllUser s' r k := by
  have hmax := TRAPFRAME_lt
  have hbound := hg.space.bound
  intro va hva
  by_cases hold : va < n * 4096
  · rw [hg.same va (by omega) (by omega)]
    exact hu va hold
  obtain ⟨pte, hpte, ⟨hflags, -⟩, -⟩ := hg.new (va / 4096) (by omega) (by omega)
  refine ⟨pte, ?_, ?_⟩
  · rw [mapping_page (by omega), hpte]
  · have hf : Flag (PTE_FLAGS pte) (2 ^ 4) := by
      rw [hflags, flag_two_pow, testBit_or, testBit_or,
        show (PTE_R ||| PTE_U).testBit 4 = true by decide, Bool.true_or, Bool.true_or]
    exact (flag_flags (by decide)).mp hf

theorem Building.uvmalloc {newsz xperm : Nat} (h : Building own₀ own s₀ s r (pages sz) tf)
    (hu : AllUser s r (pages sz)) (hx : xperm < 1024) :
    Wp E (Vm.uvmalloc r sz newsz xperm) s fun sz1 s' => ∃ own',
      Building own₀ own' s₀ s' r (pages (if sz1 = 0 then sz else sz1)) tf ∧
      AllUser s' r (pages (if sz1 = 0 then sz else sz1)) ∧
      (sz1 = 0 ∨ sz1 = newsz ∧ sz ≤ newsz ∨ sz1 = sz ∧ newsz < sz) ∧
      (sz1 ≠ 0 → sz ≤ newsz → ∀ va < TRAPFRAME,
        view s' r va = grow (view s r) (pages sz) (pages newsz) xperm va) := by
  by_cases hle : sz ≤ newsz
  · refine (uvmalloc_spec h.image.space h.heap.kmem h.heap.tables hle hx).mono ?_
    rintro sz1 s' ⟨own', ⟨rfl, hg⟩ | ⟨rfl, hg⟩⟩
    · have hsz : (if sz1 = 0 then sz else sz1) = sz1 := by
        split_ifs <;> omega
      rw [hsz]
      exact ⟨own', h.grown hg, hu.grown hg, .inr (.inl ⟨rfl, hle⟩),
        fun _ _ va hva => hg.view h.image.space hva⟩
    · rw [if_pos rfl]
      exact ⟨own', h.grown hg, hu.grown hg, .inl rfl, fun h0 => absurd rfl h0⟩
  · rw [Vm.uvmalloc, if_pos (by omega), wp_pure, if_neg (by omega)]
    exact ⟨own, h, hu, .inr (.inr ⟨rfl, by omega⟩), fun _ hle' => absurd hle' hle⟩

def headers (ip : List UInt8) : Nat → Nat → List Proghdr
  | 0, _ => []
  | m + 1, off => Proghdr.ofBytes (readi ip off Proghdr.size) ::
      headers ip m ((off + Proghdr.size) % 2 ^ 32)

def segments (phs : List Proghdr) : List Proghdr := phs.filter (·.type = ELF_PROG_LOAD)

omit [Machine] in
theorem segments_cons_load {ph : Proghdr} {phs : List Proghdr} (h : ph.type = ELF_PROG_LOAD) :
    segments (ph :: phs) = ph :: segments phs :=
  filter_cons_of_pos (decide_eq_true h)

omit [Machine] in
theorem segments_cons_skip {ph : Proghdr} {phs : List Proghdr} (h : ph.type ≠ ELF_PROG_LOAD) :
    segments (ph :: phs) = segments phs :=
  filter_cons_of_neg (by simp [h])

def Proghdr.limit (ph : Proghdr) : Nat := ph.vaddr + ph.memsz

/-- A segment that begins on a page and has its bytes in the file. -/
structure Proghdr.Fits (ph : Proghdr) (ip : List UInt8) : Prop where
  aligned : ph.vaddr % PGSIZE = 0
  small : ph.filesz ≤ ph.memsz
  inside : ph.off + ph.filesz ≤ ip.length

/-- The size and the contents after the segments have been loaded. -/
def loadImage (ip : List UInt8) : List Proghdr → Nat → (Nat → Option (Nat × UInt8)) →
    Nat × (Nat → Option (Nat × UInt8))
  | [], sz, f => (sz, f)
  | ph :: phs, sz, f => loadImage ip phs ph.limit
      (overwrite (grow f (pages sz) (pages ph.limit) (flags2perm ph.flags)) ph.vaddr
        ((ip.drop ph.off).take ph.filesz))

omit [Machine] in
theorem loadImage_congr (ip : List UInt8) (phs : List Proghdr) (sz : Nat) {T : Nat}
    {f g : Nat → Option (Nat × UInt8)} (h : ∀ a < T, f a = g a) :
    (loadImage ip phs sz f).1 = (loadImage ip phs sz g).1 ∧
      ∀ a < T, (loadImage ip phs sz f).2 a = (loadImage ip phs sz g).2 a := by
  induction phs generalizing sz f g with
  | nil => exact ⟨rfl, h⟩
  | cons ph phs ih => exact ih _ fun a ha => overwrite_congr (grow_congr (h a ha))

/-- Each segment begins in a page above the ones before. -/
def Ascending (ip : List UInt8) (sz : Nat) (phs : List Proghdr) : Prop :=
  (∀ ph ∈ phs, ph.Fits ip ∧ pages sz * 4096 ≤ ph.vaddr) ∧
    phs.Pairwise fun ph ph' => pages ph.limit * 4096 ≤ ph'.vaddr

theorem loadLoop_spec {m off : Nat}
    (h : Building own₀ own s₀ s r (pages sz) tf) (hu : AllUser s r (pages sz)) :
    Wp E (loadLoop r ip m off sz) s fun res s' => ∃ own',
      Building own₀ own' s₀ s' r (pages res.2) tf ∧ AllUser s' r (pages res.2) ∧
      (res.1 = true → ip.length < 2 ^ 32 → Ascending ip sz (segments (headers ip m off)) →
        res.2 = (loadImage ip (segments (headers ip m off)) sz (view s r)).1 ∧
        ∀ a < TRAPFRAME, view s' r a =
          (loadImage ip (segments (headers ip m off)) sz (view s r)).2 a) := by
  induction m generalizing own s off sz with
  | zero => exact ⟨own, h, hu, fun _ _ _ => ⟨rfl, fun _ _ => rfl⟩⟩
  | succ m ih =>
    rw [loadLoop, headers]
    generalize readi ip off Proghdr.size = bs
    have hvlt : (Proghdr.ofBytes bs).vaddr < 2 ^ 64 ∧ (Proghdr.ofBytes bs).memsz < 2 ^ 64 :=
      ⟨leNat_lt bs 16 8, leNat_lt bs 40 8⟩
    generalize Proghdr.ofBytes bs = ph at hvlt
    simp only [wp_ite]
    split_ifs with hlen htype hsize hwrap halign
    · exact ⟨own, h, hu, by simp⟩
    · rw [segments_cons_skip htype]
      exact ih h hu
    · exact ⟨own, h, hu, by simp⟩
    · exact ⟨own, h, hu, by simp⟩
    · exact ⟨own, h, hu, by simp⟩
    rw [segments_cons_load (Decidable.not_not.mp htype), wp_bind]
    have hlimit : (ph.vaddr + ph.memsz) % 2 ^ 64 = ph.limit := by
      rw [Proghdr.limit]
      omega
    rw [hlimit]
    refine (h.uvmalloc hu (flags2perm_lt _)).mono ?_
    rintro sz1 s1 ⟨own1, h1, hu1, hsz, hview1⟩
    rw [wp_ite]
    split_ifs with h0
    · rw [if_pos h0] at h1 hu1
      exact ⟨own1, h1, hu1, by simp⟩
    rw [if_neg h0] at h1 hu1
    rw [wp_bind]
    have hend : ph.vaddr + ph.filesz % 2 ^ 32 ≤ pages sz1 * 4096 := by
      have hmod : ph.filesz % 2 ^ 32 ≤ ph.filesz := mod_le ..
      have hpages : sz1 ≤ pages sz1 * 4096 := by
        rw [pages]
        omega
      rw [Proghdr.limit] at hsz
      omega
    refine (loadseg_spec h1 hu1 (Decidable.not_not.mp halign) hend).mono ?_
    rintro loaded s2 ⟨h2, hu2, hview2⟩
    rw [wp_ite]
    split_ifs
    · exact ⟨own1, h2, hu2, by simp⟩
    refine (ih h2 hu2).mono ?_
    rintro res s3 ⟨own3, h3, hu3, hview3⟩
    refine ⟨own3, h3, hu3, fun htrue hsmall hasc => ?_⟩
    obtain ⟨hall, hpair⟩ := hasc
    obtain ⟨hfirst, hrest⟩ := pairwise_cons.mp hpair
    obtain ⟨hfits, hsep⟩ := hall ph (.head _)
    have hle : sz ≤ ph.limit := by
      rw [Proghdr.limit]
      rw [pages] at hsep
      omega
    have hsz1 : sz1 = ph.limit := by omega
    subst hsz1
    have hin := hfits.inside
    have hoff : ph.off % 2 ^ 32 = ph.off := mod_eq_of_lt (by omega)
    have hfilesz : ph.filesz % 2 ^ 32 = ph.filesz := mod_eq_of_lt (by omega)
    rw [hoff, hfilesz] at hview2
    have hloaded := (hview2 hin hsmall).2
    have hsame : ∀ a < TRAPFRAME, view s2 r a =
        overwrite (grow (view s r) (pages sz) (pages ph.limit) (flags2perm ph.flags)) ph.vaddr
          ((ip.drop ph.off).take ph.filesz) a := fun a ha =>
      (hloaded a ha).trans (overwrite_congr (hview1 h0 hle a ha))
    obtain ⟨hsz3, hview3⟩ := hview3 htrue hsmall
      ⟨fun ph' hmem => ⟨(hall ph' (.tail _ hmem)).1, hfirst ph' hmem⟩, hrest⟩
    obtain ⟨hsz', hcongr⟩ := loadImage_congr ip
      (segments (headers ip m ((off + Proghdr.size) % 2 ^ 32))) ph.limit hsame
    rw [loadImage]
    exact ⟨hsz3.trans hsz', fun a ha => (hview3 a ha).trans (hcongr a ha)⟩

/-- `uvmclear` of a page keeps the address space, but for the user's access to the page. -/
theorem Building.uvmclear (h : Building own₀ own s₀ s r n tf) (hk : k < n) :
    Wp E (Vm.uvmclear r (k * 4096)) s fun _ s' => Building own₀ own s₀ s' r n tf ∧
      ∀ va < TRAPFRAME, view s' r va = hide (view s r) k va := by
  have hmax : MAXVA < 2 ^ 39 := MAXVA_lt
  have hmax' := TRAPFRAME_le
  have hlt := h.image.space.lt hk
  have hroot := h.image.space.root
  obtain ⟨pte, hpte, hread, hown, hpool⟩ := h.image.space.mapped k hk
  obtain ⟨hv, hlook⟩ := mapping_eq_some.mp hpte
  obtain ⟨p, hdesc⟩ : ∃ p, descend s (k * 4096) 2 r = some p := by
    refine descend_of_valid ?_
    rw [← lookup, hlook]
    exact hv
  have hp : own p = .table r (idx (k * 4096) 2) := h.heap.tables.descend hroot rfl hdesc
  have hword : s.word p (PX 0 (k * 4096)) = pte := by
    rw [← hlook]
    exact (lookupFrom_descend hdesc).symm
  have hpte64 : pte < 2 ^ 64 := by
    rw [← hword]
    exact UInt64.toNat_lt _
  rw [Vm.uvmclear, wp_bind, wp_walk_false (by omega), hdesc]
  simp only [Option.map_some, wp_modify, hword]
  generalize hnew : pte &&& (2 ^ 64 - 1 - PTE_U) = pte'
  have hpte' : pte' < 2 ^ 64 ∧ Flag pte' PTE_V ∧ Flag pte' PTE_R ∧ PTE2PA pte' = PTE2PA pte := by
    rw [← hnew]
    exact ⟨Nat.and_le_left.trans_lt hpte64, (flag_clear_user (k := 0) hpte64 (by decide)).mpr hv,
      (flag_clear_user (k := 1) hpte64 (by decide)).mpr hread, PTE2PA_clear_user hpte64⟩
  obtain ⟨hlt', hv', hread', hpa⟩ := hpte'
  have hg : Grows r own own s (s.setWord p (PX 0 (k * 4096)) pte') :=
    .setLeaf h.heap.kmem h.heap.tables hp (idx_length _ 2)
  have hmap : ∀ va < 2 ^ 39, lookup (s.setWord p (PX 0 (k * 4096)) pte') r va =
      if va / 4096 = k then pte' else lookup s r va := by
    intro va hva
    rw [h.heap.tables.lookup_setLeaf hp hlt' (by omega) hva hroot, PGSIZE,
      Nat.mul_div_cancel _ (by decide)]
  have hsame : ∀ va < 2 ^ 39, va / 4096 ≠ k →
      mapping (s.setWord p (PX 0 (k * 4096)) pte') r va = mapping s r va := by
    intro va hva hne
    refine mapping_congr ?_
    rw [hmap va hva, if_neg hne]
  have hpage : ∀ j, j * 4096 < TRAPFRAME → j ≠ k →
      mapping (s.setWord p (PX 0 (k * 4096)) pte') r (j * 4096) = mapping s r (j * 4096) := by
    intro j hj hjk
    refine hsame _ (hj.trans TRAPFRAME_lt) ?_
    rwa [Nat.mul_div_cancel _ (by decide)]
  have hself : mapping (s.setWord p (PX 0 (k * 4096)) pte') r (k * 4096) = some pte' := by
    rw [mapping_eq_some, hmap _ (by omega), if_pos (Nat.mul_div_cancel _ (by decide))]
    exact ⟨hv', rfl⟩
  have hlast := top_pages
  refine ⟨⟨⟨hg.kmem, hg.tables, h.heap.user⟩, ⟨⟨hroot, h.image.space.bound, ?_, ?_, ?_⟩, ?_, ?_, ?_⟩,
    h.loc.trans hg.isLocal⟩, ?_⟩
  · intro j hj
    by_cases hjk : j = k
    · subst hjk
      exact ⟨pte', hself, hread', by rwa [hpa], by rwa [hpa]⟩
    · rw [hpage j (h.image.space.lt hj) hjk]
      exact h.image.space.mapped j hj
  · intro q j hq
    obtain ⟨hj, pte1, hpte1, hpa1⟩ := h.image.space.owned q j hq
    refine ⟨hj, ?_⟩
    by_cases hjk : j = k
    · subst hjk
      rw [hpte] at hpte1
      cases hpte1
      exact ⟨pte', hself, hpa.trans hpa1⟩
    · rw [hpage j (h.image.space.lt hj) hjk]
      exact ⟨pte1, hpte1, hpa1⟩
  · intro j hj hjlt
    rw [hpage j hjlt (by omega)]
    exact h.image.space.clear j hj hjlt
  · rw [hsame _ (by omega) (by omega)]
    exact h.image.trampoline
  · rw [hsame _ (by omega) (by omega)]
    exact h.image.trapframe
  · intro va hle hva
    rw [hsame va hva (by omega)]
    exact h.image.above va hle hva
  intro va hva
  have hframe : ∀ j q, own q = .user r j → q % PGSIZE = 0 →
      (s.setWord p (PX 0 (k * 4096)) pte').page (q / PGSIZE) = s.page (q / PGSIZE) :=
    fun j q hq hq0 => hg.frame q hq0 (by rw [hq]; simp) (by rw [hq]; simp)
  rw [hide]
  split_ifs with hvk
  · have hvpage : va / 4096 * 4096 = k * 4096 := by rw [hvk]
    have hflags : PTE_FLAGS pte' = PTE_FLAGS pte &&& (2 ^ 64 - 1 - PTE_U) := by
      rw [← hnew, PTE_FLAGS, PTE_FLAGS, Nat.and_right_comm]
    rw [view, view, mapping_page (by omega), hvpage, hself, mapping_page (by omega), hvpage, hpte]
    simp only [Option.map_some, hflags, hpa]
    rw [Mem.byte_congr (PTE2PA_aligned _) (hframe _ _ hown hpool.1) (mod_lt _ (by decide))]
  refine view_congr (hsame va (by omega) hvk) fun pte1 hpte1 => ?_
  have hin : va < n * 4096 := by
    rw [← h.image.space.isSome_iff hva, hpte1]
    rfl
  obtain ⟨pte2, hpte2, -, hown2, hpool2⟩ := h.image.space.mapping_some hin
  rw [hpte1] at hpte2
  cases hpte2
  exact hframe _ _ hown2 hpool2.1

/-- `copyout` in a new address space writes nothing below the address it is given. -/
theorem Building.copyout (h : Building own₀ own s₀ s r n tf) (dstva : Nat) (src : List UInt8) :
    Wp E (Vm.copyout r dstva src) s fun _ s' => Building own₀ own s₀ s' r n tf ∧
      ∀ a < TRAPFRAME, a < dstva → view s' r a = view s r a := by
  have hu := h.image.userTable h.heap.tables
  refine ((h.image.copyout h.heap.tables dstva src).and (copyout_spec hu dstva src)).mono ?_
  rintro done s' ⟨ht, hdone, hall, hpart, -, -⟩
  refine ⟨h.touches ht, fun a ha hlt => ?_⟩
  obtain ⟨m, hw, hs⟩ : ∃ m, (∀ j < (src.take m).length, Writable s r (dstva + j)) ∧
      Stored (fun j => phys s r (dstva + j)) (src.take m) s s' := by
    cases done with
    | true =>
      refine ⟨src.length, ?_⟩
      rw [take_length]
      exact ⟨hdone.mp rfl, hall rfl⟩
    | false =>
      obtain ⟨m, -, hw, hs⟩ := hpart rfl
      refine ⟨m, fun j hj => hw j ?_, hs⟩
      rw [length_take] at hj
      omega
  rw [h.image.space.view_stored ht h.heap.tables hs (fun j hj => ?_) ha, overwrite_out (.inl hlt)]
  exact (h.image.space.readable (fun _ hva hle => h.image.not_readable hva hle) (hw j hj).1).1

variable {argv : List (List UInt8)}

theorem pushStrings_spec {stackbase sp : Nat} {ustack : List Nat}
    (h : Building own₀ own s₀ s r n tf) :
    Wp E (pushStrings r stackbase argv sp ustack) s fun _ s' =>
      Building own₀ own s₀ s' r n tf ∧
      ∀ a < TRAPFRAME, a < stackbase → view s' r a = view s r a := by
  induction argv generalizing s sp ustack with
  | nil => exact ⟨h, fun _ _ _ => rfl⟩
  | cons arg argv ih =>
    rw [pushStrings]
    simp only [wp_ite]
    split_ifs with hmax hlow
    · exact ⟨h, fun _ _ _ => rfl⟩
    · exact ⟨h, fun _ _ _ => rfl⟩
    refine (h.copyout _ _).bind ?_
    rintro copied s1 ⟨h1, hview1⟩
    have hbelow : ∀ a < TRAPFRAME, a < stackbase → view s1 r a = view s r a := fun a ha hlt =>
      hview1 a ha (hlt.trans_le (Nat.not_lt.mp hlow))
    rw [wp_ite]
    split_ifs
    · exact ⟨h1, hbelow⟩
    · refine (ih h1).mono ?_
      rintro _ s2 ⟨h2, hview2⟩
      exact ⟨h2, fun a ha hlt => (hview2 a ha hlt).trans (hbelow a ha hlt)⟩

theorem pushArgv_spec {entry stackbase sp : Nat} {ustack : List Nat} (h0 : Heap own₀ s₀)
    (hr : own₀ r = .free) (hr0 : r ≠ 0) (h : Building own₀ own s₀ s r (pages sz) tf) :
    Wp E (pushArgv r entry sz stackbase sp ustack) s fun res s' => Executed own₀ s₀ tf res s' ∧
      ∀ l, res = some l → l.pagetable = r ∧ l.sz = sz ∧ l.entry = entry ∧
        ∀ a < TRAPFRAME, a < stackbase → view s' r a = view s r a := by
  rw [pushArgv]
  simp only [wp_ite]
  split_ifs with hlow
  · exact (execBad_spec h0 hr h).mono fun _ _ hbad => ⟨hbad.1, by simp [hbad.2]⟩
  refine (h.copyout _ _).bind ?_
  rintro copied s1 ⟨h1, hview1⟩
  rw [wp_ite]
  split_ifs
  · exact (execBad_spec h0 hr h1).mono fun _ _ hbad => ⟨hbad.1, by simp [hbad.2]⟩
  · refine ⟨⟨hr0, hr, own, h1⟩, ?_⟩
    rintro l hl
    cases hl
    exact ⟨rfl, rfl, rfl, fun a ha hlt => hview1 a ha (hlt.trans_le (Nat.not_lt.mp hlow))⟩

/-- What is below the stack of a new address space `l`, for a program of `k` pages that was loaded
in `s`. -/
structure Stacked (s : Mem) (r entry k : Nat) (l : Loaded) (s' : Mem) : Prop where
  root : l.pagetable = r
  sz : l.sz = (k + 3) * 4096
  entry : l.entry = entry
  view : ∀ a < (k + 1) * 4096, view s' r a = hide (grow (view s r) k (k + 3) PTE_W) k a

/-- `exec` from where it allocates the stack up to where it pushes the arguments: there is no memory
for it, or the pages are there, with a guard page below the stack. -/
theorem execStack_head (entry : Nat) (h : Building own₀ own s₀ s r k tf) (hu : AllUser s r k) :
    (∃ own1 s1, Building own₀ own1 s₀ s1 r (pages (k * 4096)) tf ∧
      ∀ argv, execStack r entry (k * 4096) argv s = execBad r (k * 4096) s1) ∨
    ∃ own2 s2, Building own₀ own2 s₀ s2 r (k + 3) tf ∧
      (∀ a < TRAPFRAME, view s2 r a = hide (grow (view s r) k (k + 3) PTE_W) k a) ∧
      ∀ argv Q, Wp E (pushStrings r ((k + 1) * 4096) argv ((k + 3) * 4096) []) s2
        (fun pushed s3 => (pushed = none → Wp E (execBad r ((k + 3) * 4096)) s3 Q) ∧
          ∀ sp ustack, pushed = some (sp, ustack) →
            Wp E (pushArgv r entry ((k + 3) * 4096) ((k + 1) * 4096) sp ustack) s3 Q) →
        Wp E (execStack r entry (k * 4096) argv) s Q := by
  have hbound := h.image.space.bound
  have hmax := TRAPFRAME_lt
  have hnewsz : (k * 4096 + (USERSTACK + 1) * PGSIZE) % 2 ^ 64 = (k + 3) * 4096 := by
    rw [USERSTACK, PGSIZE]
    omega
  rw [← pages_mul k] at h hu
  have hspec : Wp (fun _ => False) (uvmalloc r (k * 4096) ((k + 3) * 4096) PTE_W) s _ :=
    h.uvmalloc hu (by decide)
  obtain ⟨sz1, s1, hrun, own1, h1, -, hsz, hview1⟩ := hspec.total
  by_cases h0 : sz1 = 0
  · rw [if_pos h0] at h1
    refine .inl ⟨own1, s1, h1, fun argv => ?_⟩
    rw [execStack, hnewsz, run_bind_ok hrun, if_pos h0]
  have hsz1 : sz1 = (k + 3) * 4096 := by lia
  subst hsz1
  have hguard : (k + 3) * 4096 - (USERSTACK + 1) * PGSIZE = k * 4096 := by
    rw [USERSTACK, PGSIZE]
    lia
  have hbase : (k + 3) * 4096 - USERSTACK * PGSIZE = (k + 1) * 4096 := by
    rw [USERSTACK, PGSIZE]
    lia
  have hview1 := hview1 h0 (Nat.mul_le_mul_right _ (Nat.le_add_right ..))
  rw [if_neg h0, pages_mul] at h1
  rw [pages_mul, pages_mul] at hview1
  have hspec2 : Wp (fun _ => False) (uvmclear r (k * 4096)) s1 _ := h1.uvmclear (by omega)
  obtain ⟨_, s2, hclear, h2, hview2⟩ := hspec2.total
  refine .inr ⟨own1, s2, h2, fun a ha => ?_, fun argv Q hQ => ?_⟩
  · rw [hview2 a ha, hide, hide, hview1 a ha]
  rw [execStack, wp_bind, hnewsz]
  refine .of_ok hrun ?_
  rw [if_neg h0, wp_bind, hguard]
  refine .of_ok hclear ?_
  rw [wp_bind, hbase]
  refine hQ.mono ?_
  rintro pushed s3 ⟨hnone, hsome⟩
  cases pushed with
  | none => exact hnone rfl
  | some res => exact hsome res.1 res.2 rfl

theorem execStack_spec {entry : Nat} (h0 : Heap own₀ s₀)
    (hr : own₀ r = .free) (hr0 : r ≠ 0) (h : Building own₀ own s₀ s r k tf) (hu : AllUser s r k) :
    Wp E (execStack r entry (k * 4096) argv) s fun res s' => Executed own₀ s₀ tf res s' ∧
      ∀ l, res = some l → Stacked s r entry k l s' := by
  rcases execStack_head entry h hu with ⟨own1, s1, h1, hrun⟩ | ⟨own2, s2, h2, hview2, hrun⟩
  · exact .of_run (hrun argv)
      ((execBad_spec h0 hr h1).mono fun _ _ hbad => ⟨hbad.1, by simp [hbad.2]⟩)
  have htop := h2.image.space.bound
  rw [← pages_mul (k + 3)] at h2
  refine hrun argv _ ((pushStrings_spec h2).mono ?_)
  rintro pushed s3 ⟨h3, hview3⟩
  refine ⟨fun _ => (execBad_spec h0 hr h3).mono fun _ _ hbad => ⟨hbad.1, by simp [hbad.2]⟩,
    fun sp ustack _ => ?_⟩
  refine (pushArgv_spec h0 hr hr0 h3).mono ?_
  rintro res s4 ⟨hdone, hres⟩
  refine ⟨hdone, fun l hl => ?_⟩
  obtain ⟨hroot, hlsz, hentry, hview4⟩ := hres l hl
  refine ⟨hroot, hlsz, hentry, fun a ha => ?_⟩
  have ha' : a < TRAPFRAME := by omega
  rw [hview4 a ha' ha, hview3 a ha' ha, hview2 a ha']

/-- What `exec` has loaded, if it does not fail. -/
def Launched (s₀ : Mem) (tf : Nat) (ip : List UInt8) (res : Option Loaded) (s : Mem) : Prop :=
  ∀ l, res = some l → ∃ s₁ sz s₂, procPagetable tf s₀ = .ok (l.pagetable, s₁) ∧
    loadLoop l.pagetable ip (Elfhdr.ofBytes (readi ip 0 Elfhdr.size)).phnum
      ((Elfhdr.ofBytes (readi ip 0 Elfhdr.size)).phoff % 2 ^ 32) 0 s₁ = .ok ((true, sz), s₂) ∧
    Stacked s₂ l.pagetable (Elfhdr.ofBytes (readi ip 0 Elfhdr.size)).entry (pages sz) l s

/-- `exec` up to where it allocates the stack: it has failed and changed nothing, or the program is
loaded. -/
theorem execImage_head (ip : List UInt8) (h : Heap own₀ s₀) (htf : tf < 2 ^ 56) :
    (∃ s, Executed own₀ s₀ tf none s ∧ ∀ argv, execImage tf (some ip) argv s₀ = .ok (none, s)) ∨
    ∃ r s1 sz s2 own2, r ≠ 0 ∧ own₀ r = .free ∧ procPagetable tf s₀ = .ok (r, s1) ∧
      loadLoop r ip (Elfhdr.ofBytes (readi ip 0 Elfhdr.size)).phnum
        ((Elfhdr.ofBytes (readi ip 0 Elfhdr.size)).phoff % 2 ^ 32) 0 s1 = .ok ((true, sz), s2) ∧
      Building own₀ own2 s₀ s2 r (pages sz) tf ∧ AllUser s2 r (pages sz) ∧
      ∀ argv, execImage tf (some ip) argv s₀ =
        execStack r (Elfhdr.ofBytes (readi ip 0 Elfhdr.size)).entry (pages sz * 4096) argv s2 := by
  simp only [execImage]
  generalize Elfhdr.ofBytes (readi ip 0 Elfhdr.size) = elf
  by_cases hlen : (readi ip 0 Elfhdr.size).length ≠ Elfhdr.size
  · refine .inl ⟨s₀, ⟨h, .refl⟩, fun argv => ?_⟩
    rw [if_pos hlen]
    rfl
  by_cases hmagic : elf.magic ≠ ELF_MAGIC
  · refine .inl ⟨s₀, ⟨h, .refl⟩, fun argv => ?_⟩
    rw [if_neg hlen, if_pos hmagic]
    rfl
  simp only [if_neg hlen, if_neg hmagic]
  obtain ⟨r, s1, hcreate, ⟨hr0, h1, hl⟩ | ⟨hr0, hr, own1, h1, hi1, hl1⟩⟩ :=
    (procPagetable_spec h htf).total
  · refine .inl ⟨s1, ⟨h1, hl⟩, fun argv => ?_⟩
    rw [run_bind_ok hcreate, if_pos hr0]
    rfl
  have hu : AllUser s1 r (pages 0) := fun va hva => absurd hva (Nat.not_lt_zero _)
  have hspec : Wp (fun _ => False) (loadLoop r ip elf.phnum (elf.phoff % 2 ^ 32) 0) s1 _ :=
    loadLoop_spec ⟨h1, hi1, hl1⟩ hu
  obtain ⟨⟨all, sz⟩, s2, hload, own2, h2, hu2, -⟩ := hspec.total
  simp only [run_bind_ok hcreate, if_neg hr0, run_bind_ok hload]
  cases all with
  | false =>
    obtain ⟨_, s', hbad, hdone, rfl⟩ := (execBad_spec (E := fun _ => False) h hr h2).total
    exact .inl ⟨s', hdone, fun argv => hbad⟩
  | true =>
    have hbound := h2.image.space.bound
    have hmax := TRAPFRAME_lt
    have hsz : sz ≤ pages sz * 4096 := by
      rw [pages]
      omega
    refine .inr ⟨r, s1, sz, s2, own2, hr0, hr, hcreate, hload, h2, hu2, fun argv => ?_⟩
    simp only at hbound
    rw [if_neg (by simp), PGROUNDUP_pages (by omega)]

/-- `exec` makes a new address space or changes nothing, whatever the file has in it. -/
theorem execImage_spec {file : Option (List UInt8)} (h : Heap own₀ s₀)
    (htf : tf < 2 ^ 56) : Wp E (execImage tf file argv) s₀ fun res s =>
      Executed own₀ s₀ tf res s ∧ ∀ ip, file = some ip → Launched s₀ tf ip res s := by
  cases file with
  | none => exact ⟨⟨h, .refl⟩, nofun⟩
  | some ip =>
    rcases execImage_head ip h htf with
      ⟨s, hdone, hrun⟩ | ⟨r, s1, sz, s2, own2, hr0, hr, hcreate, hload, h2, hu2, hrun⟩
    · exact .of_ok (hrun argv) ⟨hdone, fun _ _ => nofun⟩
    refine .of_run (hrun argv) ((execStack_spec h hr hr0 h2 hu2).mono ?_)
    rintro res s3 ⟨hdone, hres⟩
    refine ⟨hdone, fun ip' heq l hl => ?_⟩
    cases heq
    have hst := hres l hl
    have hroot := hst.root
    subst hroot
    exact ⟨s1, sz, s2, hcreate, hload, hst⟩

end Xv6.Vm
