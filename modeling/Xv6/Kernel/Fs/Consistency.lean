import Xv6.Kernel.Fs.CallSpec
import Xv6.Mkfs.Mkfs

namespace Xv6.Fs

open ByteCodec Hoare Transition Ownership Finset

/-- The free map marks the metadata blocks and the blocks that files refer to, each of them once,
and no file has a hole below its size. -/
structure Marked (sb : Superblock) (d : Disk) : Prop where
  marks : ∀ b, b < sb.size → (used sb d b = true ↔
    b < sb.nmeta ∨ ∃ p, place sb d (dinodeAt sb d) p = some b)
  once : ∀ p q b, place sb d (dinodeAt sb d) p = some b → place sb d (dinodeAt sb d) q = some b →
    p = q
  noHole : ∀ i, Allocated sb (dinodeAt sb d) i → ∀ bn, bn * BSIZE < (dinodeAt sb d i).size.toNat →
    blockAt d (dinodeAt sb d i) bn ≠ 0

/-- Besides, files refer to data blocks, and directory entries to inodes, that the disk has. -/
structure Consistent (sb : Superblock) (d : Disk) : Prop extends Marked sb d where
  dataBlocks : ∀ p b, place sb d (dinodeAt sb d) p = some b → sb.nmeta ≤ b ∧ b < sb.size
  entries : ∀ i v, files sb d (dinodeAt sb d) i = some v → v.type = T_DIR →
    ∀ k, k < v.nents → (v.entry k).inum.toNat < sb.ninodes

/-- Every directory holds whole entries. -/
def WholeEntries (sb : Superblock) (d : Disk) : Prop :=
  ∀ i v, files sb d (dinodeAt sb d) i = some v → v.type = T_DIR → v.size % 16 = 0

variable {sb : Superblock} {al : Known} {d : Disk}

theorem Marked.bound (h : Marked sb d) {i : Nat} (hi : Allocated sb (dinodeAt sb d) i) :
    (dinodeAt sb d i).size.toNat ≤ MAXFILE * BSIZE := by
  by_contra hlt
  have hne := h.noHole i hi MAXFILE (by omega)
  rw [blockAt_eq_slot] at hne
  exact absurd (lt_of_slot_ne hne) (by decide)

theorem Consistent.img (h : Consistent sb d) : Img sb d (dinodeAt sb d) where
  excl := by
    refine ⟨h.once, fun b => ?_⟩
    simp only [dataInUse, Set.mem_ofPred_eq]
    constructor
    · rintro ⟨hge, hlt, hused⟩
      cases (h.marks b hlt).mp hused with
      | inl hmeta => omega
      | inr hp => exact hp
    · rintro ⟨p, hp⟩
      obtain ⟨hge, hlt⟩ := h.dataBlocks p b hp
      exact ⟨hge, hlt, (h.marks b hlt).mpr (.inr ⟨p, hp⟩)⟩
  metaUsed b hb := (h.marks b (hb.trans_le sb.nmeta_le)).mpr (.inl hb)
  bound _ hi := h.bound hi
  noHole := h.noHole

theorem Consistent.of_img (h : Img sb d (dinodeAt sb d))
    (hentries : ∀ i v, files sb d (dinodeAt sb d) i = some v → v.type = T_DIR →
      ∀ k, k < v.nents → (v.entry k).inum.toNat < sb.ninodes) : Consistent sb d where
  marks b hb := by
    have hmem := h.excl.mem_iff b
    simp only [dataInUse, Set.mem_ofPred_eq] at hmem
    rw [← hmem]
    by_cases hlow : b < sb.nmeta
    · exact iff_of_true (h.metaUsed b hlow) (.inl hlow)
    · exact ⟨fun hu => .inr ⟨by omega, hb, hu⟩, fun hu => (hu.resolve_left hlow).2.2⟩
  once := h.excl.inj
  noHole := h.noHole
  dataBlocks p b hp := ⟨(h.excl.mem hp).1, (h.excl.mem hp).2.1⟩
  entries := hentries

theorem boot_fileRefs (d : Disk) (e : Fin NINODE) : fileRefs (boot d) e = 0 := by
  apply sum_eq_zero
  intro f _
  exact refTo_none rfl e

theorem boot_procRefs (d : Disk) (e : Fin NINODE) :
    procRefs (boot d) e = if e.val = 0 then 1 else 0 := by
  unfold procRefs
  rw [sum_eq_single ⟨0, by decide⟩]
  · simp only [Proc.refTo, boot, decide_true, true_and, Fin.ext_iff, eq_comm]
  · intro p _ hp
    apply refTo_unused
    have : p.val ≠ 0 := fun h0 => hp (Fin.ext h0)
    simp [boot, this]
  · intro h
    exact absurd (mem_univ _) h

theorem boot_inv (h : Img sb d (dinodeAt sb d)) : Inv sb (boot d) (procRefs (boot d)) where
  img := h
  named e hr := by
    have he : e.val = 0 := by
      by_contra hne
      simp [boot, hne] at hr
    simp only [boot, he, if_true]
    exact ⟨trivial, sb.root_lt⟩
  uniq e e' hr hr' _ := by
    have he : ∀ e : Fin NINODE, 0 < ((boot d).inode e).ref → e.val = 0 := by
      intro e hr
      by_contra hne
      simp [boot, hne] at hr
    exact Fin.ext ((he e hr).trans (he e' hr').symm)
  cached e _ hv := by
    by_cases he : e.val = 0
    all_goals simp [boot, he] at hv
  refs e := by
    rw [boot_fileRefs, boot_procRefs]
    by_cases he : e.val = 0
    all_goals simp [boot, he]
  closed _ _ := rfl
  opened f hf := by
    cases hf

theorem boot_sysInv (h : Consistent sb d) (hal : al.whole → WholeEntries sb d) :
    SysInv sb al (boot d) where
  inv := boot_inv h.img
  dirs i v hi hdir := ⟨h.entries i v hi hdir, fun ha => hal ha i v hi hdir⟩
  outstanding := rfl
  readAllocs := rfl

section Demo

def demoInode (type : Int16) (size addr : UInt32) : Dinode :=
  ⟨type, 0, 0, 1, size, fun k => if k.val = 0 then addr else 0⟩

/-- A disk with the root directory in block 46 and one file in block `addr`, the first `n` blocks
marked. -/
def demoDisk (size : UInt32) (ents : List Dirent) (addr : UInt32) (n : Nat) (data : Block) : Disk :=
  fun b =>
    if b = 32 then
      dinode.put (dinode.put (fun _ => 0) 1 (demoInode T_DIR size 46)) 2
        (demoInode T_FILE 1024 addr)
    else if b = 45 then Mkfs.bitmap n
    else if b = 46 then ents.zipIdx.foldl (fun blk x => dirent.put blk x.2 x.1) fun _ => 0
    else if b = 47 then data
    else fun _ => 0

variable (size : UInt32) (ents : List Dirent) (addr : UInt32) (n : Nat) (data : Block)

theorem demo_root :
    dinodeAt Mkfs.sb (demoDisk size ents addr n data) 1 = demoInode T_DIR size 46 := by
  change dinode.get (dinode.put _ 2 _) 1 = _
  rw [Codec.get_put_of_ne _ _ _ _ _ _ (by decide)]
  exact Codec.get_put_self _ _ _ _ (by decide)

theorem demo_file :
    dinodeAt Mkfs.sb (demoDisk size ents addr n data) 2 = demoInode T_FILE 1024 addr :=
  Codec.get_put_self _ _ _ _ (by decide)

theorem demo_allocated (i : Nat) :
    Allocated Mkfs.sb (dinodeAt Mkfs.sb (demoDisk size ents addr n data)) i ↔ i = 1 ∨ i = 2 := by
  constructor
  · rintro ⟨hlt, htype⟩
    by_contra hne
    apply htype
    have hlt : i < 200 := hlt
    have hblock : Mkfs.sb.iblock i = i / 16 + 32 := rfl
    unfold dinodeAt demoDisk
    rw [hblock]
    by_cases h16 : i < 16
    · rw [if_pos (by omega), Codec.get_put_of_ne _ _ _ _ _ _ (by change i % 16 ≠ 2; omega),
        Codec.get_put_of_ne _ _ _ _ _ _ (by change i % 16 ≠ 1; omega)]
      simp only [Codec.get, dite_eq_ite, ite_self]
      rfl
    · rw [if_neg (by omega), if_neg (by omega), if_neg (by omega), if_neg (by omega)]
      simp only [Codec.get, dite_eq_ite, ite_self]
      rfl
  · intro hi
    cases hi with
    | inl hi =>
      subst hi
      refine ⟨by decide, ?_⟩
      rw [demo_root]
      change T_DIR ≠ 0
      decide
    | inr hi =>
      subst hi
      refine ⟨by decide, ?_⟩
      rw [demo_file]
      change T_FILE ≠ 0
      decide

theorem slot_demoInode (d : Disk) (type : Int16) (size addr : UInt32) (k : Nat) :
    slot d (demoInode type size addr) k = if k = 0 then addr else 0 := by
  unfold slot
  split_ifs with h1 h2 h3 h4 h5
  · subst h2
    rfl
  · exact if_neg h2
  · omega
  · rfl
  · omega
  · exact absurd rfl h3

theorem demo_place (haddr : addr ≠ 0) (p : Nat × Nat) (b : Nat) :
    place Mkfs.sb (demoDisk size ents addr n data)
        (dinodeAt Mkfs.sb (demoDisk size ents addr n data)) p = some b ↔
      p = (1, 0) ∧ b = 46 ∨ p = (2, 0) ∧ b = addr.toNat := by
  obtain ⟨i, k⟩ := p
  rw [place_eq_some, demo_allocated]
  by_cases h1 : i = 1
  · subst h1
    rw [demo_root, slot_demoInode]
    by_cases hk : k = 0
    · simp [hk, eq_comm]
    · simp [hk]
  by_cases h2 : i = 2
  · subst h2
    rw [demo_file, slot_demoInode]
    by_cases hk : k = 0
    · simp [hk, haddr, eq_comm]
    · simp [hk]
  · simp [h1, h2]

theorem used_bitmap (d : Disk) (hd : d 45 = Mkfs.bitmap n) (hn : n ≤ BPB) {b : Nat}
    (hb : b < Mkfs.sb.size) : used Mkfs.sb d b = decide (b < n) := by
  have hb : b < 2000 := hb
  have hblock : Mkfs.sb.bblock b = 45 := by
    change b / 8192 + 45 = 45
    omega
  have hbit : b % BPB = b := Nat.mod_eq_of_lt (hb.trans (by decide))
  unfold used
  rw [hblock, hbit, hd]
  exact Mkfs.testBit_bitmap hn (hb.trans (by decide))

theorem demo_marked (hsize : size.toNat ≤ 1024) (haddr : addr ≠ 0) (h46 : addr.toNat ≠ 46)
    (hlt : addr.toNat < n) (hn : n ≤ 48) (hmark : ∀ b, 47 ≤ b → b < n → b = addr.toNat)
    (hroot : 46 < n) : Marked Mkfs.sb (demoDisk size ents addr n data) where
  marks b hb := by
    rw [used_bitmap n _ rfl (hn.trans (by decide)) hb, decide_eq_true_eq]
    simp only [demo_place size ents addr n data haddr]
    have hmeta : Mkfs.sb.nmeta = 46 := by decide
    rw [hmeta]
    constructor
    · intro hbn
      by_cases hb46 : b = 46
      · exact .inr ⟨_, .inl ⟨rfl, hb46⟩⟩
      · by_cases hb47 : 47 ≤ b
        · exact .inr ⟨_, .inr ⟨rfl, hmark b hb47 hbn⟩⟩
        · exact .inl (by omega)
    intro hor
    cases hor with
    | inl h => omega
    | inr h =>
      obtain ⟨p, hp⟩ := h
      omega
  once p q b hp hq := by
    rw [demo_place size ents addr n data haddr] at hp hq
    cases hp with
    | inl hp =>
      cases hq with
      | inl hq => rw [hp.1, hq.1]
      | inr hq => omega
    | inr hp =>
      cases hq with
      | inl hq => omega
      | inr hq => rw [hp.1, hq.1]
  noHole i hi bn hbn := by
    rw [demo_allocated] at hi
    rw [blockAt_eq_slot]
    cases hi with
    | inl hi =>
      subst hi
      rw [demo_root] at hbn ⊢
      have hbn : bn * 1024 < size.toNat := hbn
      have h0 : bn = 0 := by omega
      subst h0
      rw [slot_demoInode]
      decide
    | inr hi =>
      subst hi
      rw [demo_file] at hbn ⊢
      have hbn : bn * 1024 < 1024 := hbn
      have h0 : bn = 0 := by omega
      subst h0
      rw [slot_demoInode]
      exact haddr

end Demo

/-- Block ownership. After any run of system calls from a consistent image a data block is marked
if and only if it occurs at exactly one place of a file, no block occurs at two places, and no
system call frees a free block. -/
theorem blocks_owned_once (sb : Superblock) (d : Disk) (h : Consistent sb d)
    (calls : List (Fin NPROC × Call)) (s : State) (hrun : Run (Step sb) (boot d) calls s) :
    (∀ b, sb.nmeta ≤ b → b < sb.size → (used sb s.disk b = true ↔
      ∃! p, place sb s.disk (dinodeAt sb s.disk) p = some b)) ∧
    (∀ p q b, place sb s.disk (dinodeAt sb s.disk) p = some b →
      place sb s.disk (dinodeAt sb s.disk) q = some b → p = q) ∧
    ∀ l, call sb s l ≠ some (.error (.panic .freeingFreeBlock)) := by
  have hboot : SysInv sb (.image False) (boot d) := boot_sysInv h fun hal => hal.elim
  have hinv := (run_sound hboot hrun).inv
  have hexcl := hinv.inv.img.excl
  refine ⟨fun b hge hlt => ?_, hexcl.inj, fun l hl => ?_⟩
  · rw [← hexcl.mem_iff_existsUnique b]
    exact ⟨fun hu => ⟨hge, hlt, hu⟩, fun hu => hu.2.2⟩
  · exact call_error hinv False.elim False.elim hl

def stopOf : Option (Except Stop State) → Option Stop
  | some (.error x) => some x
  | _ => none

theorem eq_of_stop {r : Option (Except Stop State)} {x : Stop} (h : stopOf r = some x) :
    r = some (.error x) := by
  unfold stopOf at h
  split at h
  · cases h
    rfl
  · cases h

def p0 : Fin NPROC := ⟨0, by decide⟩

def rootEnts : List Dirent := [⟨1, dot⟩, ⟨1, dotdot⟩, ⟨2, strncpy [102]⟩]

/-- The directory names inode 244, which the disk does not have: it is a part of the file's
block. -/
def strayDisk : Disk :=
  demoDisk 64 (rootEnts ++ [⟨244, strncpy [120]⟩]) 47 48
    (dinode.put (fun _ => 0) 4 (demoInode T_FILE 1 48))

/-- The file's block is the free map. -/
def clashDisk : Disk := demoDisk 48 rootEnts 45 47 fun _ => 0

def clashCalls : List (Fin NPROC × Call) :=
  [(p0, .open [102, 0] O_RDWR), (p0, .write 0 ⟨fun _ => 0, fun _ m => m⟩ 6 0)]

theorem stray_entry_or_block_breaks_ownership :
    (Marked Mkfs.sb strayDisk ∧
      call Mkfs.sb (boot strayDisk) (p0, .open [120, 0] (O_RDWR ||| O_TRUNC)) =
        some (.error (.panic .freeingFreeBlock))) ∧
    Marked Mkfs.sb clashDisk ∧ ∃ s, Run (Step Mkfs.sb) (boot clashDisk) clashCalls s ∧
      used Mkfs.sb s.disk 46 = false ∧
      place Mkfs.sb s.disk (dinodeAt Mkfs.sb s.disk) (1, 0) = some 46 := by
  refine ⟨⟨?_, eq_of_stop (by decide +kernel)⟩, ?_, ?_⟩
  · apply demo_marked <;> decide
  · apply demo_marked <;> decide
  · have h : (exec (call Mkfs.sb) (boot clashDisk) clashCalls).map (fun s =>
        (used Mkfs.sb s.disk 46, place Mkfs.sb s.disk (dinodeAt Mkfs.sb s.disk) (1, 0))) =
          some (false, some 46) := by decide +kernel
    obtain ⟨s, hs, hval⟩ := Option.map_eq_some_iff.mp h
    exact ⟨s, run_of_exec _ _ _ _ hs, congrArg Prod.fst hval, congrArg Prod.snd hval⟩

/-- A demo run: a file is created and written, a directory made, another file removed. -/
def demoCalls : List (Fin NPROC × Call) :=
  [(p0, .open [97, 0] (O_CREATE ||| O_RDWR)), (p0, .write 0 ⟨fun _ => 120, fun _ m => m⟩ 3 0),
    (p0, .mkdir [100, 0]), (p0, .unlink [102, 0]), (p0, .close 0)]

def demoImage : Disk := demoDisk 48 rootEnts 47 48 fun _ => 0

theorem demoImage_marked : Marked Mkfs.sb demoImage := by
  apply demo_marked <;> decide

theorem demoImage_root {i : Nat} {v : View}
    (hi : files Mkfs.sb demoImage (dinodeAt Mkfs.sb demoImage) i = some v) (hdir : v.type = T_DIR) :
    v = view demoImage (demoInode T_DIR 48 46) := by
  obtain ⟨hal, hv⟩ := files_eq_some.mp hi
  subst hv
  unfold demoImage at *
  rw [demo_allocated] at hal
  cases hal with
  | inl hal =>
    subst hal
    rw [demo_root]
  | inr hal =>
    subst hal
    rw [demo_file] at hdir
    cases hdir

theorem demoImage_consistent : Consistent Mkfs.sb demoImage where
  toMarked := demoImage_marked
  dataBlocks p b hp := by
    have hmeta : Mkfs.sb.nmeta = 46 := by decide
    have hsize : Mkfs.sb.size = 2000 := by decide
    have h47 : (47 : UInt32).toNat = 47 := by decide
    have := (demo_place 48 rootEnts 47 48 _ (by decide) p b).mp hp
    omega
  entries i v hi hdir k hk := by
    rw [demoImage_root hi hdir] at hk ⊢
    have h : ∀ k, k < 3 →
        ((view demoImage (demoInode T_DIR 48 46)).entry k).inum.toNat < 200 := by decide +kernel
    exact h k hk

theorem demoImage_wholeEntries : WholeEntries Mkfs.sb demoImage := by
  intro i v hi hdir
  rw [demoImage_root hi hdir]
  decide

theorem demo_run : ∃ s, Run (Step Mkfs.sb) (boot demoImage) demoCalls s := by
  have h : (exec (call Mkfs.sb) (boot demoImage) demoCalls).isSome = true := by decide +kernel
  obtain ⟨s, hs⟩ := Option.isSome_iff_exists.mp h
  exact ⟨s, run_of_exec _ _ _ _ hs⟩

theorem blocks_owned_once_demo :
    ∃ s, Run (Step Mkfs.sb) (boot demoImage) demoCalls s ∧
      (∀ b, Mkfs.sb.nmeta ≤ b → b < Mkfs.sb.size → (used Mkfs.sb s.disk b = true ↔
        ∃! p, place Mkfs.sb s.disk (dinodeAt Mkfs.sb s.disk) p = some b)) := by
  obtain ⟨s, hs⟩ := demo_run
  exact ⟨s, hs, (blocks_owned_once Mkfs.sb demoImage demoImage_consistent demoCalls s hs).1⟩

/-- No holes. After any run of system calls from a consistent image whose directories hold whole
entries, every file has its blocks below its size and a bounded size, no read has allocated a block,
and no read of a system call panics. -/
theorem files_have_no_holes (sb : Superblock) (d : Disk) (h : Consistent sb d)
    (hw : WholeEntries sb d) (calls : List (Fin NPROC × Call)) (s : State)
    (hrun : Run (Step sb) (boot d) calls s) :
    (∀ i, Allocated sb (dinodeAt sb s.disk) i →
      (dinodeAt sb s.disk i).size.toNat ≤ MAXFILE * BSIZE ∧
      ∀ bn, bn * BSIZE < (dinodeAt sb s.disk i).size.toNat →
        blockAt s.disk (dinodeAt sb s.disk i) bn ≠ 0) ∧
    s.hist.readAllocs = 0 ∧
    ∀ l, call sb s l ≠ some (.error (.panic .bmapOutOfRange)) ∧
      call sb s l ≠ some (.error (.panic .dirlookupRead)) ∧
      call sb s l ≠ some (.error (.panic .outsideTrans)) := by
  have hboot : SysInv sb (.image True) (boot d) := boot_sysInv h fun _ => hw
  have hinv := (run_sound hboot hrun).inv
  refine ⟨fun i hi => ⟨hinv.inv.img.bound i hi, hinv.inv.img.noHole i hi⟩, hinv.readAllocs,
    fun l => ⟨fun hl => ?_, fun hl => ?_, fun hl => ?_⟩⟩
  · exact call_error hinv False.elim False.elim hl
  · exact call_error hinv False.elim False.elim hl trivial
  · exact call_error hinv False.elim False.elim hl

/-- The root directory ends in the middle of an entry. -/
def raggedDisk : Disk := demoDisk 40 rootEnts 47 48 fun _ => 0

theorem ragged_directory_panics :
    (∀ i, Allocated Mkfs.sb (dinodeAt Mkfs.sb raggedDisk) i →
      (dinodeAt Mkfs.sb raggedDisk i).size.toNat ≤ MAXFILE * BSIZE ∧
      ∀ bn, bn * BSIZE < (dinodeAt Mkfs.sb raggedDisk i).size.toNat →
        blockAt raggedDisk (dinodeAt Mkfs.sb raggedDisk i) bn ≠ 0) ∧
    call Mkfs.sb (boot raggedDisk) (p0, .open [122, 0] O_RDONLY) =
      some (.error (.panic .dirlookupRead)) := by
  have hm : Marked Mkfs.sb raggedDisk := by
    apply demo_marked <;> decide
  exact ⟨fun i hi => ⟨hm.bound hi, hm.noHole i hi⟩, eq_of_stop (by decide +kernel)⟩

theorem files_have_no_holes_demo :
    ∃ s, Run (Step Mkfs.sb) (boot demoImage) demoCalls s ∧ s.hist.readAllocs = 0 := by
  obtain ⟨s, hs⟩ := demo_run
  exact ⟨s, hs, (files_have_no_holes Mkfs.sb demoImage demoImage_consistent demoImage_wholeEntries
    demoCalls s hs).2.1⟩

/-- The inode table between system calls. After any run of system calls from a consistent image no
inode has two entries, an entry that was read in agrees with the disk and is of an inode in use, its
count is that of the files and processes that refer to it, and a call for which enough entries are
free never panics for want of one. -/
theorem inode_table_coherent {sb : Superblock} {d : Disk} (h : Consistent sb d)
    {calls : List (Fin NPROC × Call)} {s : State} (hrun : Run (Step sb) (boot d) calls s) :
    (∀ e e', 0 < (s.inode e).ref → 0 < (s.inode e').ref →
      (s.inode e).inum = (s.inode e').inum → e = e') ∧
    (∀ e, 0 < (s.inode e).ref → (s.inode e).valid = true →
      (s.inode e).din = dinodeAt sb s.disk (s.inode e).inum ∧
        Allocated sb (dinodeAt sb s.disk) (s.inode e).inum) ∧
    (∀ e, (s.inode e).ref = fileRefs s e + procRefs s e) ∧
    ∀ l, l.2.igets ≤ (Finset.univ.filter fun e => (s.inode e).ref = 0).card →
      call sb s l ≠ some (.error (.panic .igetNoInodes)) := by
  have hboot : SysInv sb (.image False) (boot d) := boot_sysInv h False.elim
  have hinv := (run_sound hboot hrun).inv
  have hroom : SysInv sb ⟨False, False, True⟩ s := ⟨hinv.inv, hinv.dirs, hinv.outstanding, hinv.readAllocs⟩
  refine ⟨hinv.inv.uniq, fun e hr hv => ⟨(hinv.inv.cached e hr hv).1, hinv.inv.allocated hr hv⟩,
    hinv.inv.refs, fun l hl hs => call_error hroom (fun _ => ?_) False.elim hs trivial⟩
  simpa only [Room, ← hinv.inv.refs] using hl

theorem inode_table_coherent_demo :
    ∃ s, Run (Step Mkfs.sb) (boot demoImage) demoCalls s ∧
      ∀ e, (s.inode e).ref = fileRefs s e + procRefs s e := by
  obtain ⟨s, hs⟩ := demo_run
  exact ⟨s, hs, (inode_table_coherent demoImage_consistent hs).2.2.1⟩

end Xv6.Fs
