import Xv6.Kernel.Vm.Args
import Xv6.Kernel.Vm.Isolation

namespace Xv6.Vm

open ByteCodec Hoare List

/-- A state in which the next calls of `kalloc` fail as given. -/
def Sys.failing (S : Sys) (fails : List Bool) : Sys :=
  { S with mem := { S.mem with fails := fails } }

section

variable [Machine] {own own' : Nat → Owner} {m m' : Mem} {S S' : Sys} {i j : Fin NPROC} {B : List Nat}

/-- Nothing that a process could notice has changed, and the pages of the free list are the same, in
some order. -/
structure Unnoticed (S S' : Sys) : Prop where
  proc : S'.proc = S.proc
  file : S'.file = S.file
  iref : S'.iref = S.iref
  space : ∀ j, (S.proc j).state ≠ .UNUSED → SameSpace S S' j
  free : ∃ l l', Chain S.mem S.mem.freelist l ∧ Chain S'.mem S'.mem.freelist l' ∧ l'.Perm l

theorem Undone.unnoticed (hu : Undone own S S') (h : Shape B own S) : Unnoticed S S' := by
  obtain ⟨l, hl, hnodup, hmem⟩ := h.sound.procs.heap.kmem.chain
  obtain ⟨l', hl', hnodup', hmem'⟩ := hu.procs.heap.kmem.chain
  refine ⟨?_, ?_, ?_, fun j hj => hu.spared.same h hj, l, l', hl, hl', ?_⟩
  · rw [hu.sys]
  · rw [hu.sys]
  · rw [hu.sys]
  · rw [perm_ext_iff_of_nodup hnodup' hnodup]
    intro p
    rw [hmem, hmem']

/-- When `exec` fails, wherever it does, nothing has changed, and so it is with the system call. -/
theorem failed_exec_unnoticed (h : Reachable B S) (hi : (S.proc i).state ≠ .UNUSED)
    (fails : List Bool) (file : Option (List UInt8)) :
    (∀ path argv S', exec i path file argv (S.failing fails) = .ok (none, S') →
      Unnoticed (S.failing fails) S') ∧
    ∀ path uargv S', sysExec i path file uargv (S.failing fails) = .ok (none, S') →
      Unnoticed (S.failing fails) S' := by
  obtain ⟨own, hs⟩ := h.shape
  have hs' : Shape B own (S.failing fails) := hs.withFails fails
  have hlive := (hs.ok i).live hi
  constructor
  · intro path argv S' hrun
    obtain ⟨_, _, -, ⟨-, -, hu⟩ | ⟨_, _, -, hres, -⟩⟩ :=
      (exec_spec (E := fun _ => False) hs'.sound.procs hlive.1 hlive.2).result hrun
    · exact hu.unnoticed hs'
    · cases hres
  · intro path uargv S' hrun
    obtain ⟨-, hu⟩ | ⟨_, _, _, _, hres, -⟩ :=
      (sysExec_spec (E := fun _ => False) hs'.sound.procs hs'.held hlive.1 hlive.2).result hrun
    · exact hu.unnoticed hs'
    · cases hres

omit [Machine] in
/-- The system call of the first process for a path without a file. -/
theorem failed_exec_unnoticed_boot : ∃ S S', @Reachable smallMachine bootPages S ∧
    @sysExec smallMachine 0 (some [97]) none 0 S = .ok (none, S') ∧ Unnoticed S S' := by
  let := smallMachine
  obtain ⟨S, S', hS, hstate, -, hrun⟩ := bootThen_parts (sysExec 0 (some [97]) none 0) none
    (by decide +kernel)
  have hused : (S.proc 0).state ≠ .UNUSED := by simp [hstate]
  exact ⟨S, S', hS, hrun, (failed_exec_unnoticed hS hused S.mem.fails none).2 _ _ _ hrun⟩

end

section Image

variable {ip : List UInt8} {ph : Proghdr} {phs : List Proghdr} {sz a : Nat}
  {f : Nat → Option (Nat × UInt8)}

theorem Ascending.tail (h : Ascending ip sz (ph :: phs)) : Ascending ip ph.limit phs := by
  obtain ⟨hall, hpair⟩ := h
  obtain ⟨hfirst, hrest⟩ := List.pairwise_cons.mp hpair
  exact ⟨fun ph' hmem => ⟨(hall ph' (.tail _ hmem)).1, hfirst ph' hmem⟩, hrest⟩

theorem Ascending.head (h : Ascending ip sz (ph :: phs)) :
    ph.Fits ip ∧ pages sz * 4096 ≤ ph.vaddr :=
  h.1 ph (.head _)

theorem Proghdr.le_pages (ph : Proghdr) : ph.vaddr ≤ pages ph.limit * 4096 := by
  rw [pages, limit]
  omega

section

variable (h : Ascending ip sz phs)
include h

theorem loadImage_below (ha : a < pages sz * 4096) : (loadImage ip phs sz f).2 a = f a := by
  induction phs generalizing sz f with
  | nil => rfl
  | cons ph phs ih =>
    have hle := h.head.2
    rw [loadImage, ih h.tail (ha.trans_le (hle.trans ph.le_pages)),
      overwrite_out (.inl (ha.trans_le hle)), grow, if_pos ha]

def Proghdr.pteFlags (ph : Proghdr) : Nat := PTE_R ||| PTE_U ||| flags2perm ph.flags ||| PTE_V

/-- The bytes of a segment are those of the file, and then zeros up to the end of its last page. -/
theorem loadImage_segment (hmem : ph ∈ phs) (hle : ph.vaddr ≤ a) (hlt : a < pages ph.limit * 4096) :
    (loadImage ip phs sz f).2 a = some (ph.pteFlags,
      if a < ph.vaddr + ph.filesz then ip.getD (ph.off + (a - ph.vaddr)) 0 else 0) := by
  induction phs generalizing sz f with
  | nil => cases hmem
  | cons ph' phs ih =>
    rw [loadImage]
    cases hmem with
    | tail _ hmem => exact ih h.tail hmem
    | head =>
      obtain ⟨hfits, hsep⟩ := h.head
      have hin := hfits.inside
      have hlen : ((ip.drop ph.off).take ph.filesz).length = ph.filesz := by
        rw [length_take, length_drop]
        omega
      have hgrow : grow f (pages sz) (pages ph.limit) (flags2perm ph.flags) a =
          some (ph.pteFlags, 0) := by
        rw [grow, if_neg (by omega), if_pos hlt]
        rfl
      rw [loadImage_below h.tail hlt]
      split_ifs with hfile
      · rw [overwrite_in hle (by rwa [hlen]), hgrow, Option.map_some]
        simp only [getD_eq_getElem?_getD]
        rw [List.getElem?_take_of_lt (by omega), List.getElem?_drop]
      · rw [overwrite_out (.inr (by omega)), hgrow]

theorem loadImage_gap (hle : pages sz * 4096 ≤ a) (hlt : a < pages (loadImage ip phs sz f).1 * 4096)
    (hout : ∀ ph ∈ phs, ¬ (ph.vaddr ≤ a ∧ a < ph.vaddr + ph.filesz)) :
    ∃ fl, (loadImage ip phs sz f).2 a = some (fl, 0) := by
  induction phs generalizing sz f with
  | nil => exact absurd hlt (Nat.not_lt.mpr hle)
  | cons ph phs ih =>
    rw [loadImage] at hlt ⊢
    by_cases hin : a < pages ph.limit * 4096
    · have hno := hout ph (.head _)
      have hlen : ((ip.drop ph.off).take ph.filesz).length ≤ ph.filesz := length_take_le ..
      refine ⟨ph.pteFlags, ?_⟩
      rw [loadImage_below h.tail hin, overwrite_out (by omega), grow, if_neg (by omega), if_pos hin]
      rfl
    · exact ih h.tail (Nat.not_lt.mp hin) hlt fun ph' hmem => hout ph' (.tail _ hmem)

theorem loadImage_size : pages sz * 4096 ≤ pages (loadImage ip phs sz f).1 * 4096 := by
  induction phs generalizing sz f with
  | nil => exact Nat.le_refl _
  | cons ph phs ih => exact (h.head.2.trans ph.le_pages).trans (ih h.tail)

theorem loadImage_limit (hmem : ph ∈ phs) :
    pages ph.limit * 4096 ≤ pages (loadImage ip phs sz f).1 * 4096 := by
  induction phs generalizing sz f with
  | nil => cases hmem
  | cons ph' phs ih =>
    cases hmem with
    | tail _ hmem => exact ih h.tail hmem
    | head => exact loadImage_size h.tail

end

theorem Proghdr.flag_pteFlags (ph : Proghdr) :
    Flag ph.pteFlags PTE_R ∧ Flag ph.pteFlags PTE_U ∧
      (Flag ph.pteFlags PTE_W ↔ ph.flags &&& 2 ≠ 0) ∧
      (Flag ph.pteFlags PTE_X ↔ ph.flags &&& 1 ≠ 0) := by
  rw [pteFlags, flags2perm]
  split_ifs <;> refine ⟨by decide, by decide, ?_, ?_⟩ <;>
    first | exact iff_of_true (by decide) ‹_› | exact iff_of_false (by decide) ‹_›

end Image

section

variable [Machine] {own own' : Nat → Owner} {m m' : Mem} {S S' : Sys} {i j : Fin NPROC} {B : List Nat}

def elfhdr (ip : List UInt8) : Elfhdr := Elfhdr.ofBytes (readi ip 0 Elfhdr.size)

def loads (ip : List UInt8) : List Proghdr :=
  segments (headers ip (elfhdr ip).phnum ((elfhdr ip).phoff % 2 ^ 32))

variable {l : Loaded}

omit [Machine] in
theorem Mem.word_setRegs {tf : Nat}
    (h : m'.page (tf / PGSIZE) = (m.setRegs tf l).page (tf / PGSIZE)) :
    (l.entry < 2 ^ 64 → m'.word tf Trapframe.epc = l.entry) ∧
      (l.sp < 2 ^ 64 → m'.word tf Trapframe.a1 = l.sp ∧ m'.word tf Trapframe.sp = l.sp) := by
  have hword : ∀ k, m'.word tf k = (m.setRegs tf l).word tf k := fun k => by rw [word, word, h]
  simp only [hword, setRegs]
  refine ⟨fun hentry => ?_, fun hsp => ⟨?_, ?_⟩⟩
  · rw [word_setWord_index (by decide), word_setWord_self (by decide) hentry]
  · rw [word_setWord_index (by decide), word_setWord_index (by decide),
      word_setWord_self (by decide) hsp]
  · rw [word_setWord_self (by decide) hsp]

/-- `exec` has loaded a program of size `sz`, in the memory `s`, and then made the stack, in `m`. -/
structure Started (i : Fin NPROC) (path ip : List UInt8) (argv : List (List UInt8)) (S S' : Sys)
    (l : Loaded) (sz : Nat) (s m : Mem) : Prop where
  image : execImage (S.proc i).trapframe (some ip) argv S.mem = .ok (some l, m)
  root : l.pagetable ≠ 0
  proc : S'.proc i = (S.proc i).running path l
  view : ∀ va < TRAPFRAME, view S'.mem l.pagetable va = view m l.pagetable va
  frame : S'.mem.page ((S.proc i).trapframe / PGSIZE) =
    (m.setRegs (S.proc i).trapframe l).page ((S.proc i).trapframe / PGSIZE)
  load : ∃ s₁, procPagetable (S.proc i).trapframe S.mem = .ok (l.pagetable, s₁) ∧
    loadLoop l.pagetable ip (elfhdr ip).phnum ((elfhdr ip).phoff % 2 ^ 32) 0 s₁ =
      .ok ((true, sz), s)
  stacked : Stacked s l.pagetable (elfhdr ip).entry (pages sz) l m
  bound : (pages sz + 3) * 4096 ≤ TRAPFRAME

variable {argv : List (List UInt8)} {path ip : List UInt8}

theorem exec_started (h : Shape B own S) (hi : (S.proc i).state ≠ .UNUSED) {argc : Nat}
    (hrun : exec i path (some ip) argv S = .ok (some argc, S')) :
    ∃ l sz s m, argc = l.argc ∧ Started i path ip argv S S' l sz s m := by
  have hlive := (h.ok i).live hi
  have htf := h.sound.procs.isPool ((h.sound.procs.trapframe i _ hlive.2).mpr rfl) (by simp)
  obtain ⟨loaded, m, himage, ⟨-, hnone, -⟩ | ⟨l, own', rfl, hres, hr⟩⟩ :=
    (exec_spec (E := fun _ => False) h.sound.procs hlive.1 hlive.2).result hrun
  · cases hnone
  obtain ⟨-, hlaunch⟩ := (execImage_spec (E := fun _ => False) h.sound.procs.heap
    (htf.2.2.trans (by decide))).result himage
  obtain ⟨s1, sz, s2, hcreate, hload, hst⟩ := hlaunch ip rfl l rfl
  have hspace := (hr.procs.image i (by rw [hr.proc_self]; exact hr.root)).space.bound
  rw [hr.proc_self, Proc.running, hst.sz, pages_mul] at hspace
  exact ⟨l, sz, s2, m, Option.some.inj hres, himage, hr.root, hr.proc_self, hr.view, hr.frame,
    ⟨s1, hcreate, hload⟩, hst, hspace⟩

variable {sz : Nat} {s : Mem}

theorem Started.loaded (hst : Started i path ip argv S S' l sz s m) (h : Shape B own S)
    (hi : (S.proc i).state ≠ .UNUSED) (hsmall : ip.length < 2 ^ 32)
    (hasc : Ascending ip 0 (loads ip)) :
    sz = (loadImage ip (loads ip) 0 fun _ => none).1 ∧ ∀ a < TRAPFRAME,
      Vm.view s l.pagetable a = (loadImage ip (loads ip) 0 fun _ => none).2 a := by
  have hlive := (h.ok i).live hi
  have htf := h.sound.procs.isPool ((h.sound.procs.trapframe i _ hlive.2).mpr rfl) (by simp)
  obtain ⟨s1, hcreate, hload⟩ := hst.load
  obtain ⟨h0, -⟩ | ⟨-, -, own1, hheap, himage, hl⟩ := (procPagetable_spec (E := fun _ => False)
    h.sound.procs.heap (htf.2.2.trans (by decide))).result hcreate
  · exact absurd h0 hst.root
  have hu : AllUser s1 l.pagetable (pages 0) := fun va hva => absurd hva (Nat.not_lt_zero _)
  have hspec : Wp (fun _ => False) (loadLoop l.pagetable ip (elfhdr ip).phnum
      ((elfhdr ip).phoff % 2 ^ 32) 0) s1 _ := loadLoop_spec ⟨hheap, himage, hl⟩ hu
  obtain ⟨-, -, -, hview⟩ := hspec.result hload
  obtain ⟨hsz, hview⟩ := hview rfl hsmall hasc
  obtain ⟨hsz', hcongr⟩ := loadImage_congr ip (loads ip) 0 (g := fun _ => none) fun a ha =>
    himage.space.view_none (Nat.zero_le a) ha
  exact ⟨hsz.trans hsz', fun a ha => (hview a ha).trans (hcongr a ha)⟩

theorem exec_total (h : Shape B own S) (hi : (S.proc i).state ≠ .UNUSED) (path : List UInt8)
    (file : Option (List UInt8)) (argv : List (List UInt8)) :
    ∃ loaded m S', execImage (S.proc i).trapframe file argv S.mem = .ok (loaded, m) ∧
      exec i path file argv S = .ok (loaded.map Loaded.argc, S') := by
  have hlive := (h.ok i).live hi
  have hspec : Wp (fun _ => False) (exec i path file argv) S _ :=
    exec_spec h.sound.procs hlive.1 hlive.2
  obtain ⟨res, S', hrun, loaded, m, himage, ⟨rfl, rfl, -⟩ | ⟨l, -, rfl, rfl, -⟩⟩ := hspec.total
  · exact ⟨none, m, S', himage, hrun⟩
  · exact ⟨some l, m, S', himage, hrun⟩

/-- A machine with pages enough for two processes. -/
@[reducible] def elfMachine : Machine where
  kend := PHYSTOP - 18 * PGSIZE
  trampoline := KERNBASE
  kernbase_le := by decide
  le_phystop := by decide
  aligned := smallMachine.aligned
  kernbase_le_trampoline := smallMachine.kernbase_le_trampoline
  trampoline_lt := by decide

/-- A program of two bytes, for a page that may be read and executed. -/
def tinyElf : List UInt8 :=
  [127, 69, 76, 70] ++ List.replicate 28 0 ++ [64] ++ List.replicate 23 0 ++ [1] ++
    List.replicate 7 0 ++ [1, 0, 0, 0, 5, 0, 0, 0, 120] ++ List.replicate 23 0 ++ [2] ++
    List.replicate 7 0 ++ [3] ++ List.replicate 15 0 ++ [19, 5]

def tinyImage : SysM (Option Nat) := do
  let S ← get
  let loaded ← onMem (execImage (S.proc 0).trapframe (some tinyElf) [[97]])
  pure (loaded.map Loaded.argc)

omit [Machine] in
theorem tiny_exec : ∃ S S', @Reachable elfMachine bootPages S ∧ (S.proc 0).state ≠ .UNUSED ∧
    @exec elfMachine 0 [97] (some tinyElf) [[97]] S = .ok (some 1, S') := by
  let := elfMachine
  obtain ⟨S, S1, hS, hstate, -, hrun⟩ := bootThen_parts tinyImage (some 1) (by decide +kernel)
  have hused : (S.proc 0).state ≠ .UNUSED := by simp [hstate]
  obtain ⟨own, hs⟩ := hS.shape
  obtain ⟨loaded, m, S', himage, hexec⟩ := exec_total hs hused [97] (some tinyElf) [[97]]
  rw [tinyImage] at hrun
  obtain ⟨_, _, hget, hrun⟩ := bind_ok hrun
  cases hget
  obtain ⟨loaded', S2, hmem, hargc⟩ := bind_ok hrun
  rw [onMem, himage] at hmem
  cases hmem
  have heq : loaded.map Loaded.argc = some 1 := (Prod.mk.inj (Except.ok.inj hargc)).1
  rw [heq] at hexec
  exact ⟨S, S', hS, hused, hexec⟩

theorem Started.view_below {a : Nat} (hst : Started i path ip argv S S' l sz s m)
    (ha : a < (pages sz + 1) * 4096) :
    Vm.view S'.mem (S'.proc i).pagetable a = if a < pages sz * 4096 then Vm.view s l.pagetable a
      else some ((PTE_R ||| PTE_U ||| PTE_W ||| PTE_V) &&& (2 ^ 64 - 1 - PTE_U), 0) := by
  have hbound := hst.bound
  rw [hst.proc]
  refine (hst.view a (by omega)).trans ((hst.stacked.view a ha).trans ?_)
  rw [hide, grow]
  split_ifs with hguard hlow hnew hlow hnew
  · omega
  · rfl
  · omega
  · rfl
  · omega
  · omega

/-- When `exec` succeeds, the segments of the file are at their addresses, with zeros around them and
with the permissions of the segments, and the program starts at its entry. -/
theorem exec_loads_segments (h : Reachable B S) (hi : (S.proc i).state ≠ .UNUSED) (fails : List Bool)
    {path ip : List UInt8} {argv : List (List UInt8)} {argc : Nat} (hsmall : ip.length < 2 ^ 32)
    (hfits : ∀ ph ∈ loads ip, ph.Fits ip)
    (hsorted : (loads ip).Pairwise fun ph ph' => pages ph.limit * PGSIZE ≤ ph'.vaddr)
    (hrun : exec i path (some ip) argv (S.failing fails) = .ok (some argc, S')) :
    (∀ ph ∈ loads ip, ∀ a, ph.vaddr ≤ a → a < ph.vaddr + ph.filesz → ∃ fl,
      view S'.mem (S'.proc i).pagetable a = some (fl, ip.getD (ph.off + (a - ph.vaddr)) 0)) ∧
    (∀ a < (S'.proc i).sz - USERSTACK * PGSIZE,
      (∀ ph ∈ loads ip, ¬ (ph.vaddr ≤ a ∧ a < ph.vaddr + ph.filesz)) → ∃ fl,
        view S'.mem (S'.proc i).pagetable a = some (fl, 0)) ∧
    (∀ ph ∈ loads ip, ∀ a, ph.vaddr ≤ a → a < pages ph.limit * PGSIZE → ∃ fl b,
      view S'.mem (S'.proc i).pagetable a = some (fl, b) ∧ Flag fl PTE_R ∧ Flag fl PTE_U ∧
        (Flag fl PTE_W ↔ ph.flags &&& 2 ≠ 0) ∧ (Flag fl PTE_X ↔ ph.flags &&& 1 ≠ 0)) ∧
    S'.mem.word (S'.proc i).trapframe Trapframe.epc = (elfhdr ip).entry := by
  obtain ⟨own, hs⟩ := h.shape
  have hs' : Shape B own (S.failing fails) := hs.withFails fails
  obtain ⟨l, sz, s, m, -, hst⟩ := exec_started hs' hi hrun
  have hasc : Ascending ip 0 (loads ip) := by
    refine ⟨fun ph hmem => ⟨hfits ph hmem, ?_⟩, hsorted⟩
    rw [show pages 0 = 0 from rfl, Nat.zero_mul]
    exact Nat.zero_le _
  obtain ⟨hsz, hview⟩ := hst.loaded hs' hi hsmall hasc
  have hbound := hst.bound
  have hseg : ∀ ph ∈ loads ip, ∀ a, ph.vaddr ≤ a → a < pages ph.limit * 4096 →
      view S'.mem (S'.proc i).pagetable a = some (ph.pteFlags,
        if a < ph.vaddr + ph.filesz then ip.getD (ph.off + (a - ph.vaddr)) 0 else 0) := by
    intro ph hmem a hle hlt
    have hin : a < pages sz * 4096 := by
      rw [hsz]
      exact hlt.trans_le (loadImage_limit hasc hmem)
    rw [hst.view_below (hin.trans_le (Nat.mul_le_mul_right _ (Nat.le_succ _))), if_pos hin,
      hview a (by omega)]
    exact loadImage_segment hasc hmem hle hlt
  refine ⟨?_, ?_, ?_, ?_⟩
  · intro ph hmem a hle hlt
    refine ⟨ph.pteFlags, ?_⟩
    have hsize := (hfits ph hmem).small
    rw [hseg ph hmem a hle ?_, if_pos hlt]
    rw [pages, Proghdr.limit]
    omega
  · intro a ha hout
    have hsz' : (S'.proc i).sz = (pages sz + 3) * 4096 := by
      rw [hst.proc]
      exact hst.stacked.sz
    rw [hsz', USERSTACK, PGSIZE] at ha
    rw [hst.view_below (by omega)]
    split_ifs with hin
    · rw [hview a (by omega)]
      rw [hsz] at hin
      exact loadImage_gap hasc (by simp [pages]) hin hout
    · exact ⟨_, rfl⟩
  · intro ph hmem a hle hlt
    exact ⟨_, _, hseg ph hmem a hle hlt, ph.flag_pteFlags⟩
  · have hentry := hst.stacked.entry
    rw [hst.proc]
    refine ((Mem.word_setRegs hst.frame).1 ?_).trans hentry
    rw [hentry]
    exact leNat_lt ..

omit [Machine] in
/-- The code of the small program is at address 0, and nobody may write to it. -/
theorem exec_loads_segments_tiny : ∃ S S', @Reachable elfMachine bootPages S ∧
    @exec elfMachine 0 [97] (some tinyElf) [[97]] S = .ok (some 1, S') ∧
    ∃ fl, view S'.mem (S'.proc 0).pagetable 1 = some (fl, 5) := by
  let := elfMachine
  obtain ⟨S, S', hS, hused, hrun⟩ := tiny_exec
  have hloads : loads tinyElf = [⟨1, 5, 120, 0, 2, 3⟩] := by decide +kernel
  have hlen : tinyElf.length = 122 := by decide +kernel
  have hbyte : tinyElf.getD (120 + (1 - 0)) 0 = 5 := by decide +kernel
  have hfits : ∀ ph ∈ loads tinyElf, ph.Fits tinyElf := by
    rw [hloads]
    simp only [List.mem_singleton, forall_eq]
    exact ⟨by decide, by decide, by rw [hlen]; decide⟩
  obtain ⟨hbytes, -⟩ := exec_loads_segments hS hused S.mem.fails (by rw [hlen]; decide) hfits
    (by rw [hloads]; exact List.pairwise_singleton ..) hrun
  obtain ⟨fl, hfl⟩ := hbytes ⟨1, 5, 120, 0, 2, 3⟩ (by rw [hloads]; exact .head _) 1 (by decide)
    (by decide)
  simp only at hfl
  rw [hbyte] at hfl
  exact ⟨S, S', hS, hrun, fl, hfl⟩

/-- The size of a program that was loaded, rounded up, and its contents are as they were before the
stack was made, and the guard page above it is zero and not for the user. -/
structure Unwritten (i : Fin NPROC) (ip : List UInt8) (S S' : Sys) (sz : Nat) (s : Mem) : Prop where
  load : ∃ s₁, procPagetable (S.proc i).trapframe S.mem = .ok ((S'.proc i).pagetable, s₁) ∧
    loadLoop (S'.proc i).pagetable ip (elfhdr ip).phnum ((elfhdr ip).phoff % 2 ^ 32) 0 s₁ =
      .ok ((true, sz), s)
  size : (S'.proc i).sz = PGROUNDUP sz + (USERSTACK + 1) * PGSIZE
  program : ∀ a < PGROUNDUP sz,
    view S'.mem (S'.proc i).pagetable a = view s (S'.proc i).pagetable a
  guard : ∀ a, PGROUNDUP sz ≤ a → a < PGROUNDUP sz + PGSIZE → ∃ fl,
    view S'.mem (S'.proc i).pagetable a = some (fl, 0) ∧ ¬ Flag fl PTE_U

theorem Started.unwritten (hst : Started i path ip argv S S' l sz s m) :
    Unwritten i ip S S' sz s := by
  have hbound := hst.bound
  have hmax := TRAPFRAME_lt
  have hround : PGROUNDUP sz = pages sz * 4096 := by
    refine PGROUNDUP_pages ?_
    rw [pages] at hbound
    omega
  have hproc := hst.proc
  refine ⟨?_, ?_, ?_, ?_⟩
  · rw [hproc]
    exact hst.load
  · rw [hproc, hround, USERSTACK, PGSIZE]
    refine hst.stacked.sz.trans ?_
    lia
  · intro a ha
    rw [hround] at ha
    rw [hst.view_below (ha.trans_le (Nat.mul_le_mul_right _ (Nat.le_succ _))), if_pos ha, hproc]
    rfl
  · intro a hle hlt
    rw [hround] at hle hlt
    rw [PGSIZE] at hlt
    rw [hst.view_below (by omega), if_neg (by omega)]
    exact ⟨_, rfl, by decide⟩

/-- No push takes more bytes than there are below the stack pointer, neither one of a string nor the
one of the pointers. -/
def NoUnderflow (sz : Nat) (argv : List (List UInt8)) : Prop :=
  (∀ (k : Nat) (arg : List UInt8), argv[k]? = some arg →
    stringsSize (argv.take k) ≤ USERSTACK * PGSIZE →
    arg.length + 1 ≤ sz - stringsSize (argv.take k)) ∧
  (stringsSize argv ≤ USERSTACK * PGSIZE → (argv.length + 1) * 8 ≤ sz - stringsSize argv)

omit [Machine] in
theorem Passable.noUnderflow (h : Passable argv)
    (hsz : (USERSTACK + 1) * PGSIZE ≤ sz) : NoUnderflow sz argv := by
  have hcount := h.count
  rw [MAXARG] at hcount
  rw [USERSTACK, PGSIZE] at hsz
  refine ⟨fun k arg harg hk => ?_, fun hk => ?_⟩
  · have hshort := h.short arg (mem_of_getElem? harg)
    rw [PGSIZE] at hshort
    rw [USERSTACK, PGSIZE] at hk
    omega
  · rw [USERSTACK, PGSIZE] at hk
    omega

/-- `exec` fails as it would without arguments, or because they do not fit on the stack. Otherwise
they are on the stack of the new address space, and nothing is written below it. -/
theorem exec_arguments (h : Reachable B S) (hi : (S.proc i).state ≠ .UNUSED) (fails : List Bool)
    (path : List UInt8) (file : Option (List UInt8)) (argv : List (List UInt8))
    (hcount : argv.length ≤ MAXARG - 1) (hshort : ∀ arg ∈ argv, arg.length < PGSIZE) :
    ∃ res S', exec i path file argv (S.failing fails) = .ok (res, S') ∧
      (res = none ↔ (∃ S'', exec i path file [] (S.failing fails) = .ok (none, S'')) ∨
        USERSTACK * PGSIZE < blockSize argv) ∧
      (∀ n S'', exec i path file [] (S.failing fails) = .ok (some n, S'') →
        NoUnderflow (S''.proc i).sz argv) ∧
      ∀ argc, res = some argc → argc = argv.length ∧
        (∃ sp ptr, S'.mem.word (S'.proc i).trapframe Trapframe.a1 = sp ∧
          S'.mem.word (S'.proc i).trapframe Trapframe.sp = sp ∧
          ArgBlock S'.mem (S'.proc i).pagetable sp (S'.proc i).sz argv ptr) ∧
        ∃ ip sz s, file = some ip ∧ Unwritten i ip (S.failing fails) S' sz s := by
  obtain ⟨own, hs⟩ := h.shape
  have hs' : Shape B own (S.failing fails) := hs.withFails fails
  have hlive := (hs'.ok i).live hi
  have htf := hs'.sound.procs.isPool ((hs'.sound.procs.trapframe i _ hlive.2).mpr rfl) (by simp)
  have hpass : Passable argv := ⟨hcount, hshort⟩
  have hnil : Passable [] := ⟨by decide, by simp⟩
  obtain ⟨loaded, m, S', himage, hrun⟩ := exec_total hs' hi path file argv
  obtain ⟨loaded₀, m₀, S₀, himage₀, hrun₀⟩ := exec_total hs' hi path file []
  refine ⟨_, S', hrun, ?_⟩
  cases file with
  | none =>
    obtain ⟨rfl, -⟩ := Prod.mk.inj (Except.ok.inj himage)
    obtain ⟨rfl, -⟩ := Prod.mk.inj (Except.ok.inj himage₀)
    refine ⟨iff_of_true rfl (.inl ⟨S₀, hrun₀⟩), fun n S'' hrun'' => ?_, by simp⟩
    rw [hrun₀] at hrun''
    cases hrun''
  | some ip =>
    have hplaces := execImage_places (E := fun _ => False) ip hs'.sound.procs.heap
      (htf.2.2.trans (by decide))
    refine ⟨?_, fun n S'' hrun'' => ?_, fun argc hargc => ?_⟩
    · rcases hplaces with hfail | hfit
      · obtain rfl := (hfail argv).result himage
        obtain rfl := (hfail []).result himage₀
        exact iff_of_true rfl (.inl ⟨S₀, hrun₀⟩)
      have hnone := ((hfit argv hpass).result himage).1
      have hnone₀ := ((hfit [] hnil).result himage₀).1
      rw [Option.map_eq_none_iff, hnone, or_iff_right]
      rintro ⟨S'', hrun''⟩
      rw [hrun₀] at hrun''
      have heq := (Prod.mk.inj (Except.ok.inj hrun'')).1
      exact absurd (hnone₀.mp (Option.map_eq_none_iff.mp heq)) (by decide)
    · obtain ⟨l, sz, s, m, -, hst⟩ := exec_started hs' hi hrun''
      refine hpass.noUnderflow ?_
      rw [hst.unwritten.size]
      exact Nat.le_add_left ..
    · obtain ⟨l, rfl, rfl⟩ := Option.map_eq_some_iff.mp hargc
      obtain ⟨l', sz, s, m', -, hst⟩ := exec_started hs' hi hrun
      have himage' := hst.image
      rw [himage] at himage'
      cases himage'
      rcases hplaces with hfail | hfit
      · cases (hfail argv).result himage
      obtain ⟨s', k, q, ps, harr⟩ := ((hfit argv hpass).result himage).2 l rfl
      have hsz : l.sz = (k + 3) * 4096 := by rw [harr.loaded]
      have hbound := hst.bound
      rw [← hst.stacked.sz, hsz] at hbound
      have hblock := harr.block hbound hst.view
      have hsp : l.sp < 2 ^ 64 := by
        have := hblock.size
        have := TRAPFRAME_lt
        omega
      obtain ⟨ha1, hreg⟩ := (Mem.word_setRegs hst.frame).2 hsp
      have hproc := hst.proc
      refine ⟨by rw [harr.loaded], ⟨l.sp, ps, ?_, ?_, ?_⟩, ip, sz, s, rfl, hst.unwritten⟩
      · rw [hproc]
        exact ha1
      · rw [hproc]
        exact hreg
      · rw [hproc]
        exact hblock

omit [Machine] in
/-- The argument of the small program. -/
theorem exec_arguments_tiny : ∃ S S', @Reachable elfMachine bootPages S ∧
    @exec elfMachine 0 [97] (some tinyElf) [[97]] S = .ok (some 1, S') ∧
    ∃ sp ptr, ArgBlock S'.mem (S'.proc 0).pagetable sp (S'.proc 0).sz [[97]] ptr := by
  let := elfMachine
  obtain ⟨S, S', hS, hused, hrun⟩ := tiny_exec
  obtain ⟨res, S'', hrun', -, -, hargs⟩ := exec_arguments hS hused S.mem.fails [97] (some tinyElf)
    [[97]] (by decide) (by decide)
  rw [show S.failing S.mem.fails = S from rfl, hrun] at hrun'
  cases hrun'
  obtain ⟨-, ⟨sp, ptr, -, -, hblock⟩, -⟩ := hargs 1 rfl
  exact ⟨S, S', hS, hrun, sp, ptr, hblock⟩

end

end Xv6.Vm
