import Xv6.Kernel.Fs.Links

namespace Xv6.Fs

open ByteCodec Hoare Transition NameTree Ownership Function Option List Finset UInt32

theorem TreeImage.staysCounted {sb : Superblock} {d : Disk} (h : TreeImage sb d)
    {calls : List (Fin NPROC × Call)} {s : State} (hrun : Run (Step sb) (boot d) calls s)
    (hreg : s.Regular) : StaysCounted sb s := by
  intro s' hs hnotes
  have hreg' : (s'.abs sb none).Regular := ⟨hnotes.1.trans hreg.1, hnotes.2.trans hreg.2⟩
  exact (hs.rooted (h.run hrun hreg) h.inums hreg').counted

/-- Link counts. After any run of system calls in which no link count of 32767 is incremented and
entries are added to live directories only, every link count is the number of entries for the inode,
no `unlink` finds a link count below 1, and every entry in use names an inode that exists. -/
theorem link_counts_never_wrap (sb : Superblock) (d : Disk) (h : TreeImage sb d)
    (calls : List (Fin NPROC × Call)) (s : State) (hrun : Run (Step sb) (boot d) calls s)
    (hreg : s.Regular) :
    (∀ i v, s.files sb i = some v → v.nlink.toInt = entryCount sb.ninodes (s.files sb) i) ∧
    (∀ l, call sb s l ≠ some (.error (.panic .unlinkNlink))) ∧
    ∀ j dv k, s.files sb j = some dv → dv.type = T_DIR → k < dv.nents →
      ¬ (dv.entry k).Nameless → ∃ v, s.files sb (dv.entry k).inum.toNat = some v ∧ 0 < v.nlink := by
  have hrooted := h.run hrun hreg
  have hinv := (h.sound hrun).inv
  have hknown : SysInv sb ⟨True, True, False⟩ s :=
    ⟨hinv.inv, hinv.dirs, hinv.outstanding, hinv.readAllocs⟩
  refine ⟨(hrooted.linkTree rfl).count, fun l hl => ?_, ?_⟩
  · exact call_error hknown False.elim (fun _ => h.staysCounted hrun hreg) hl trivial
  · intro j dv k hj hdir hk hname
    exact hrooted.named_pos hj hdir hk hname

section Full

/-- A directory of 16384 entries in the 257 blocks from `base` on, the thirteenth of them its
indirect block. -/
def bigInode (base : Nat) : Dinode := ⟨T_DIR, 0, 0, 1, 262144, fun k => UInt32.ofNat (base + k.val)⟩

def bigIndirect (base : Nat) : Block :=
  u32.fill fun e => if e < 244 then UInt32.ofNat (base + 13 + e) else 0

/-- An "x" and four other letters. -/
def letters (k : Nat) : List UInt8 :=
  [120, UInt8.ofNat (97 + k / 4096 % 16), UInt8.ofNat (97 + k / 256 % 16),
    UInt8.ofNat (97 + k / 16 % 16), UInt8.ofNat (97 + k % 16)]

def bigEntry (num k : Nat) : Dirent :=
  if k = 0 then ⟨UInt16.ofNat num, dot⟩ else if k = 1 then ⟨1, dotdot⟩
  else ⟨2, strncpy (letters k)⟩

/-- Block `r` of the big directory `num` at `base`. -/
def bigBlock (num base r : Nat) : Block :=
  if r = 12 then bigIndirect base
  else dirent.fill fun t => bigEntry num ((if r < 12 then r else r - 1) * 64 + t)

def fullInode (i : Nat) : Dinode :=
  if i = 1 then ⟨T_DIR, 0, 0, 3, 112, fun k => if k.val = 0 then 46 else 0⟩
  else if i = 2 then ⟨T_FILE, 0, 0, 32767, 0, fun _ => 0⟩
  else if i = 3 then bigInode 47
  else if i = 4 then bigInode 304
  else .zero

def fullRoot : List Dirent :=
  [⟨1, dot⟩, ⟨1, dotdot⟩, ⟨2, strncpy [102]⟩, ⟨2, strncpy [103]⟩, ⟨2, strncpy [104]⟩,
    ⟨3, strncpy [97]⟩, ⟨4, strncpy [98]⟩]

/-- A disk with one file under 32767 names: three in the root directory, the others in two big
directories. -/
def fullDisk : Disk := fun b =>
  if b = 32 then dinode.fill fullInode
  else if b = 45 then Mkfs.bitmap 561
  else if b = 46 then dirent.fill fun t => fullRoot.getD t .zero
  else if 47 ≤ b ∧ b < 304 then bigBlock 3 47 (b - 47)
  else if 304 ≤ b ∧ b < 561 then bigBlock 4 304 (b - 304)
  else fun _ => 0

variable {i : Nat}

theorem full_dinode (hi : i < 200) : dinodeAt Mkfs.sb fullDisk i = fullInode i ∨
    5 ≤ i ∧ (dinodeAt Mkfs.sb fullDisk i).type = 0 := by
  have hblock : Mkfs.sb.iblock i = i / 16 + 32 := rfl
  unfold dinodeAt fullDisk
  rw [hblock]
  by_cases h16 : i < 16
  · have hmod : i % IPB = i := Nat.mod_eq_of_lt h16
    left
    rw [if_pos (by omega), hmod]
    apply Codec.get_fill
    unfold BSIZE
    omega
  right
  refine ⟨by omega, ?_⟩
  rw [if_neg (by omega), if_neg (by omega), if_neg (by omega), if_neg (by omega), if_neg (by omega)]
  simp only [Codec.get, dite_eq_ite, ite_self]
  rfl

theorem full_dinode_lt (hi : i < 5) : dinodeAt Mkfs.sb fullDisk i = fullInode i :=
  (full_dinode (by omega)).resolve_right (by omega)

theorem full_allocated (i : Nat) :
    Allocated Mkfs.sb (dinodeAt Mkfs.sb fullDisk) i ↔ 1 ≤ i ∧ i < 5 := by
  constructor
  · rintro ⟨hlt, htype⟩
    by_contra hne
    apply htype
    cases full_dinode hlt with
    | inl heq =>
      rw [heq]
      unfold fullInode
      rw [if_neg (by omega), if_neg (by omega), if_neg (by omega), if_neg (by omega)]
      rfl
    | inr heq => exact heq.2
  · rintro ⟨hge, hlt⟩
    refine ⟨by change i < 200; omega, ?_⟩
    rw [full_dinode_lt hlt]
    have hcases : ∀ i, 1 ≤ i → i < 5 → (fullInode i).type ≠ 0 := by decide
    exact hcases i hge hlt

theorem letters_ne (k : Nat) : strncpy (letters k) ≠ dot ∧ strncpy (letters k) ≠ dotdot := by
  have hfirst : strncpy (letters k) ⟨0, by decide⟩ = 120 := by
    simp [strncpy, letters]
  constructor
  all_goals
    intro heq
    rw [heq] at hfirst
    exact absurd hfirst (by decide)

variable {k : Nat}

theorem slot_big {base : Nat} (hbase : 0 < base) (hlt : base + 257 < 2 ^ 32)
    (hind : fullDisk (base + 12) = bigIndirect base) :
    slot fullDisk (bigInode base) k = if k < 257 then ofNat (base + k) else 0 := by
  have hind0 : (bigInode base).ind = ofNat (base + 12) := rfl
  have hnum : (bigInode base).ind.toNat = base + 12 := by
    rw [hind0]
    apply toNat_ofNat_of_lt'
    change base + 12 < 2 ^ 32
    omega
  have hne : (bigInode base).ind ≠ 0 := by
    intro h0
    rw [h0] at hnum
    change 0 = base + 12 at hnum
    omega
  by_cases h13 : k < 13
  · rw [if_pos (by omega)]
    exact slot_direct fullDisk (bigInode base) ⟨k, h13⟩
  by_cases hge : NSLOT ≤ k
  · rw [slot_ge _ _ hge, if_neg (by unfold NSLOT NDIRECT NINDIRECT BSIZE at hge; omega)]
  unfold NSLOT NDIRECT NINDIRECT BSIZE at hge
  rw [slot_entry _ _ (by unfold NDIRECT; omega) hne, hnum, hind]
  unfold bigIndirect
  rw [Codec.get_fill _ _ _ (by unfold NDIRECT BSIZE; omega)]
  unfold NDIRECT
  by_cases h : k < 257
  · rw [if_pos h, if_pos (by omega)]
    congr 1
    omega
  · rw [if_neg h, if_neg (by omega)]

theorem full_block3 {r : Nat} (hr : r < 257) : fullDisk (47 + r) = bigBlock 3 47 r := by
  unfold fullDisk
  rw [if_neg (by omega), if_neg (by omega), if_neg (by omega), if_pos (by omega),
    Nat.add_sub_cancel_left]

theorem full_block4 {r : Nat} (hr : r < 257) : fullDisk (304 + r) = bigBlock 4 304 r := by
  unfold fullDisk
  rw [if_neg (by omega), if_neg (by omega), if_neg (by omega), if_neg (by omega),
    if_pos (by omega), Nat.add_sub_cancel_left]

/-- Where a big directory is. -/
structure Big (num base : Nat) : Prop where
  pos : 0 < base
  lt : base + 257 < 2 ^ 32
  din : dinodeAt Mkfs.sb fullDisk num = bigInode base
  block : ∀ r, r < 257 → fullDisk (base + r) = bigBlock num base r

theorem big3 : Big 3 47 := ⟨by decide, by decide, full_dinode_lt (by decide), fun _ => full_block3⟩

theorem big4 : Big 4 304 := ⟨by decide, by decide, full_dinode_lt (by decide), fun _ => full_block4⟩

namespace Big

variable {num base : Nat}

section

variable (h : Big num base)
include h

theorem slot_eq (k : Nat) :
    slot fullDisk (bigInode base) k = if k < 257 then ofNat (base + k) else 0 :=
  slot_big h.pos h.lt (h.block 12 (by decide))

theorem toNat (hk : k < 257) : (ofNat (base + k)).toNat = base + k := by
  have := h.lt
  apply toNat_ofNat_of_lt'
  change base + k < 2 ^ 32
  omega

theorem slot_ne (hk : k < 257) : slot fullDisk (bigInode base) k ≠ 0 := by
  rw [h.slot_eq, if_pos hk]
  intro h0
  have hnum := h.toNat hk
  have hpos := h.pos
  rw [h0] at hnum
  change 0 = base + k at hnum
  omega

theorem place_iff (hal : 1 ≤ num ∧ num < 5) (k b : Nat) :
    place Mkfs.sb fullDisk (dinodeAt Mkfs.sb fullDisk) (num, k) = some b ↔
      k < 257 ∧ b = base + k := by
  rw [place_eq_some, full_allocated, h.din]
  constructor
  · rintro ⟨-, hne, rfl⟩
    have hk : k < 257 := by
      by_contra hk
      rw [h.slot_eq, if_neg hk] at hne
      exact hne rfl
    rw [h.slot_eq, if_pos hk, h.toNat hk]
    exact ⟨hk, rfl⟩
  · rintro ⟨hk, rfl⟩
    refine ⟨hal, h.slot_ne hk, ?_⟩
    rw [h.slot_eq, if_pos hk, h.toNat hk]

omit h in
theorem slotOf_lt {bn : Nat} (hbn : bn < 256) : slotOf bn < 257 := by
  unfold slotOf
  split_ifs <;> omega

theorem noHole {bn : Nat} (hbn : bn < 256) : blockAt fullDisk (bigInode base) bn ≠ 0 := by
  rw [blockAt_eq_slot]
  exact h.slot_ne (slotOf_lt hbn)

theorem entry_eq (hk : k < 16384) : (view fullDisk (bigInode base)).entry k = bigEntry num k := by
  have hbn : k / 64 < 256 := by omega
  have hslot := slotOf_lt hbn
  have hdata : (view fullDisk (bigInode base)).data (k / 64) =
      bigBlock num base (slotOf (k / 64)) := by
    unfold view
    simp only [if_neg (h.noHole hbn)]
    rw [blockAt_eq_slot, h.slot_eq, if_pos hslot, h.toNat hslot, h.block _ hslot]
  have hslots : (if slotOf (k / 64) < 12 then slotOf (k / 64) else slotOf (k / 64) - 1) = k / 64 := by
    unfold slotOf NDIRECT
    split_ifs <;> omega
  have hne : slotOf (k / 64) ≠ 12 := slotOf_ne_ind _
  rw [View.entry, hdata, bigBlock, if_neg hne, hslots]
  rw [Codec.get_fill _ _ _ (by unfold BSIZE; omega)]
  congr 1
  omega

omit h in
theorem nents_eq : (view fullDisk (bigInode base)).nents = 16384 := by
  change (262144 : UInt32).toNat / 16 = 16384
  decide

theorem dots : (view fullDisk (bigInode base)).Dots num where
  two := by
    rw [nents_eq]
    decide
  self := h.entry_eq (by decide)
  parent := by
    rw [h.entry_eq (by decide)]
    exact ⟨(by decide : (1 : UInt16) ≠ 0), rfl⟩
  rest k hk2 hk _ := by
    rw [nents_eq] at hk
    rw [h.entry_eq hk]
    unfold bigEntry
    rw [if_neg (by omega), if_neg (by omega)]
    exact letters_ne k

theorem node_eq : (view fullDisk (bigInode base)).node = ⟨1, replicate 16382 (some 2)⟩ := by
  have hslots : (view fullDisk (bigInode base)).node.slots = replicate 16382 (some 2) := by
    apply ext_getElem?
    intro k
    rw [View.slots_getElem?, nents_eq, List.getElem?_replicate]
    by_cases hk : k + 2 < 16384
    · rw [if_pos hk, if_pos (by omega), h.entry_eq hk]
      unfold bigEntry
      rw [if_neg (by omega), if_neg (by omega)]
      rfl
    · rw [if_neg hk, if_neg (by omega)]
  have hparent : (view fullDisk (bigInode base)).node.parent = 1 := by
    change ((view fullDisk (bigInode base)).entry 1).inum.toNat = 1
    rw [h.entry_eq (by decide)]
    rfl
  rw [← hslots, ← hparent]

end

theorem live : (view fullDisk (bigInode base)).Live := ⟨rfl, (by decide : (0 : Int16) < 1)⟩

end Big

def rootView : View := view fullDisk (fullInode 1)

theorem slot_root (k : Nat) : slot fullDisk (fullInode 1) k = if k = 0 then 46 else 0 := by
  unfold slot
  split_ifs with h1 h2 h3 h4 h5
  · subst h2
    rfl
  · exact if_neg h2
  · omega
  · rfl
  · omega
  · exact absurd rfl h3

theorem slot_file (k : Nat) : slot fullDisk (fullInode 2) k = 0 := by
  unfold slot
  split_ifs with h1 h2
  · rfl
  · rfl
  · exact absurd rfl h2

theorem full_place (i k b : Nat) :
    place Mkfs.sb fullDisk (dinodeAt Mkfs.sb fullDisk) (i, k) = some b ↔
      i = 1 ∧ k = 0 ∧ b = 46 ∨ i = 3 ∧ k < 257 ∧ b = 47 + k ∨ i = 4 ∧ k < 257 ∧ b = 304 + k := by
  by_cases h3 : i = 3
  · subst h3
    rw [big3.place_iff (by decide)]
    simp
  by_cases h4 : i = 4
  · subst h4
    rw [big4.place_iff (by decide)]
    simp
  rw [place_eq_some, full_allocated]
  by_cases h1 : i = 1
  · subst h1
    rw [full_dinode_lt (by decide : 1 < 5), slot_root]
    by_cases hk : k = 0
    · simp [hk, eq_comm]
    · simp [hk]
  · by_cases h2 : i = 2
    · subst h2
      rw [full_dinode_lt (by decide : 2 < 5), slot_file]
      simp
    · omega

theorem full_img : Img Mkfs.sb fullDisk (dinodeAt Mkfs.sb fullDisk) where
  excl := by
    have hmeta : Mkfs.sb.nmeta = 46 := by decide
    have hsize : Mkfs.sb.size = 2000 := rfl
    refine ⟨?_, fun b => ?_⟩
    · rintro ⟨i, k⟩ ⟨j, l⟩ b hp hq
      rw [full_place] at hp hq
      have : i = j ∧ k = l := by omega
      rw [this.1, this.2]
    simp only [dataInUse, Set.mem_ofPred_eq, Prod.exists, full_place, hmeta, hsize]
    constructor
    · rintro ⟨hge, hlt, hused⟩
      rw [used_bitmap 561 fullDisk rfl (by decide) hlt, decide_eq_true_eq] at hused
      by_cases h46 : b = 46
      · exact ⟨1, 0, by omega⟩
      · by_cases h304 : b < 304
        · exact ⟨3, b - 47, by omega⟩
        · exact ⟨4, b - 304, by omega⟩
    · rintro ⟨i, k, hp⟩
      refine ⟨by omega, by omega, ?_⟩
      rw [used_bitmap 561 fullDisk rfl (by decide) (by omega), decide_eq_true_eq]
      omega
  metaUsed b hb := by
    have hmeta : Mkfs.sb.nmeta = 46 := by decide
    rw [used_bitmap 561 fullDisk rfl (by decide)
      (by rw [hmeta] at hb; exact hb.trans (by decide)), decide_eq_true_eq]
    omega
  bound i hi := by
    obtain ⟨hge, hlt⟩ := (full_allocated i).mp hi
    rw [full_dinode_lt hlt]
    have hcases : ∀ i, 1 ≤ i → i < 5 → (fullInode i).size.toNat ≤ MAXFILE * BSIZE := by decide
    exact hcases i hge hlt
  noHole i hi bn hbn := by
    obtain ⟨hge, hlt⟩ := (full_allocated i).mp hi
    rw [full_dinode_lt hlt] at hbn ⊢
    have hcases : i = 1 ∨ i = 2 ∨ i = 3 ∨ i = 4 := by omega
    unfold BSIZE at hbn
    rcases hcases with rfl | rfl | rfl | rfl
    · have hsize : (fullInode 1).size.toNat = 112 := by decide
      have h0 : bn = 0 := by omega
      rw [h0, blockAt_eq_slot]
      change slot fullDisk (fullInode 1) 0 ≠ 0
      rw [slot_root]
      decide
    · have hsize : (fullInode 2).size.toNat = 0 := by decide
      omega
    · have hsize : (fullInode 3).size.toNat = 262144 := by decide
      exact big3.noHole (by omega)
    · have hsize : (fullInode 4).size.toNat = 262144 := by decide
      exact big4.noHole (by omega)

def fullFiles : Nat → Option View := files Mkfs.sb fullDisk (dinodeAt Mkfs.sb fullDisk)

theorem fullFiles_eq (hi : 1 ≤ i ∧ i < 5) : fullFiles i = some (view fullDisk (fullInode i)) := by
  unfold fullFiles
  rw [files_of_allocated ((full_allocated i).mpr hi), full_dinode_lt hi.2]

theorem fullFiles_none (hi : ¬ (1 ≤ i ∧ i < 5)) : fullFiles i = none :=
  if_neg fun hal => hi ((full_allocated i).mp hal)

def rootNode : Node Nat := ⟨1, [some 2, some 2, some 2, some 3, some 4]⟩

def bigNode : Node Nat := ⟨1, List.replicate 16382 (some 2)⟩

theorem rootView_node : rootView.node = rootNode := by
  have hslots : rootView.node.slots = rootNode.slots := by decide +kernel
  have hparent : rootView.node.parent = rootNode.parent := by decide +kernel
  exact congrArg₂ Node.mk hparent hslots

theorem rootView_live : rootView.Live := by decide

theorem rootView_dots : rootView.Dots 1 where
  two := by decide
  self := Dirent.ext (by decide +kernel) (by decide +kernel)
  parent := by decide +kernel
  rest := by
    have hall : ∀ k, k < 7 → 2 ≤ k → (rootView.entry k).inum ≠ 0 →
        (rootView.entry k).name ≠ dot ∧ (rootView.entry k).name ≠ dotdot := by decide +kernel
    intro k hk2 hk
    exact hall k hk hk2

def fullTree : Nat → Option (Node Nat) :=
  update (update (update (fun _ => none) 1 (some rootNode)) 3
    (some bigNode)) 4 (some bigNode)

theorem fullFiles_liveDirs : liveDirs fullFiles = fullTree := by
  funext i
  change liveNode (fullFiles i) = _
  unfold fullTree
  by_cases h4 : i = 4
  · subst h4
    rw [update_self, fullFiles_eq (by decide)]
    change liveNode (some (view fullDisk (bigInode 304))) = _
    rw [liveNode_live Big.live, big4.node_eq]
    rfl
  rw [update_of_ne h4]
  by_cases h3 : i = 3
  · subst h3
    rw [update_self, fullFiles_eq (by decide)]
    change liveNode (some (view fullDisk (bigInode 47))) = _
    rw [liveNode_live Big.live, big3.node_eq]
    rfl
  rw [update_of_ne h3]
  by_cases h1 : i = 1
  · subst h1
    rw [update_self, fullFiles_eq (by decide)]
    change liveNode (some rootView) = _
    rw [liveNode_live rootView_live, rootView_node]
  rw [update_of_ne h1]
  by_cases h2 : i = 2
  · subst h2
    rw [fullFiles_eq (by decide)]
    exact liveNode_dead (by decide)
  · rw [fullFiles_none (by omega)]
    rfl

theorem bigNode_refs (j : Nat) :
    bigNode.refs j = (if 1 = j then 1 else 0) + if 2 = j then 16382 else 0 := by
  unfold Node.refs bigNode
  rw [count_replicate]
  simp

theorem rootNode_refs (j : Nat) : rootNode.refs j = (if 1 = j then 1 else 0) +
    ((if 2 = j then 3 else 0) + (if 3 = j then 1 else 0) + if 4 = j then 1 else 0) := by
  unfold Node.refs rootNode
  simp only [count_cons, count_nil, beq_iff_eq, some.injEq]
  split_ifs <;> omega

theorem fullTree_refs (j : Nat) :
    refs (range 200) fullTree j = rootNode.refs j + bigNode.refs j + bigNode.refs j := by
  have hzero : refs (range 200) (fun _ : Nat => (none : Option (Node Nat))) j = 0 := by
    simp [refs]
  have h1 := refs_update (t := fun _ => none) (Finset.mem_range.mpr (by decide : 1 < 200))
    (some rootNode) j
  have h2 := refs_update (t := update (fun _ => none) 1 (some rootNode))
    (Finset.mem_range.mpr (by decide : 3 < 200)) (some bigNode) j
  have h3 := refs_update (t := update (update (fun _ => none) 1 (some rootNode)) 3
    (some bigNode)) (Finset.mem_range.mpr (by decide : 4 < 200)) (some bigNode) j
  rw [update_of_ne (by decide)] at h2
  rw [update_of_ne (by decide), update_of_ne (by decide)] at h3
  simp only [map_some, map_none, getD_some, getD_none, Nat.add_zero]
    at h1 h2 h3
  unfold fullTree
  omega

theorem names_root {t : Nat → Option (Node Nat)} (h1 : t 1 = some rootNode)
    (hbig : ∀ d, d ≠ 1 → ∀ x, t d = some x → x = bigNode) (hi : i ≠ 2) {d : Nat} :
    Names t d k i ↔ d = 1 ∧ rootNode.slots[k]? = some (some i) := by
  constructor
  · rintro ⟨x, hx, hk⟩
    by_cases hd : d = 1
    · subst hd
      rw [h1] at hx
      cases hx
      exact ⟨rfl, hk⟩
    · rw [hbig d hd x hx] at hk
      have := mem_of_getElem? hk
      exact absurd (some.inj (eq_of_mem_replicate this)) hi
  · rintro ⟨rfl, hk⟩
    exact ⟨rootNode, h1, hk⟩

theorem rootNode_slot (h : rootNode.slots[k]? = some (some i)) (hi : i ≠ 2) :
    k = i ∧ (i = 3 ∨ i = 4) := by
  have hlt : k < 5 := by
    obtain ⟨hlt, -⟩ := List.getElem?_eq_some_iff.mp h
    exact hlt
  have hcases : k = 0 ∨ k = 1 ∨ k = 2 ∨ k = 3 ∨ k = 4 := by omega
  rcases hcases with rfl | rfl | rfl | rfl | rfl <;>
    simp only [rootNode, List.getElem?_cons_zero, List.getElem?_cons_succ, some.injEq] at h <;>
    omega

theorem fullTree_tree : NameTree.Tree ROOTINO fullTree := by
  have hsingle : NameTree.Tree ROOTINO
      (update (fun _ => none) 1 (some rootNode) : Nat → Option (Node Nat)) := by
    refine .single (x := rootNode) ?_ (update_self ..) rfl (by decide)
    intro d hd
    exact update_of_ne hd ..
  have hbig1 : ∀ d, d ≠ 1 → ∀ x,
      (update (fun _ => none) 1 (some rootNode) : Nat → Option (Node Nat)) d = some x →
        x = bigNode := by
    intro d hd x hx
    rw [update_of_ne hd] at hx
    cases hx
  have hslots : ∀ j, some j ∈ bigNode.slots → j = 2 := by
    intro j hj
    exact some.inj (eq_of_mem_replicate hj)
  have hone : NameTree.Tree ROOTINO (update (update (fun _ => none) 1
      (some rootNode)) 3 (some bigNode) : Nat → Option (Node Nat)) := by
    refine hsingle.insert (d := 1) (k := 3) rfl ?_ ?_ rfl ?_
    · exact ⟨rootNode, update_self .., rfl⟩
    · intro d' k' hn
      obtain ⟨rfl, hk⟩ := (names_root (update_self ..) hbig1 (by decide)).mp hn
      exact ⟨rfl, (rootNode_slot hk (by decide)).1⟩
    · intro j hj
      rw [hslots j hj]
      exact ⟨by decide, rfl⟩
  have hbig2 : ∀ d, d ≠ 1 → ∀ x, (update (update (fun _ => none) 1
      (some rootNode)) 3 (some bigNode) : Nat → Option (Node Nat)) d = some x → x = bigNode := by
    intro d hd x hx
    by_cases h3 : d = 3
    · subst h3
      rw [update_self] at hx
      exact (some.inj hx).symm
    · rw [update_of_ne h3] at hx
      exact hbig1 d hd x hx
  refine hone.insert (d := 1) (k := 4) rfl ?_ ?_ rfl ?_
  · exact ⟨rootNode, rfl, rfl⟩
  · intro d' k' hn
    obtain ⟨rfl, hk⟩ := (names_root rfl hbig2 (by decide)).mp hn
    exact ⟨rfl, (rootNode_slot hk (by decide)).1⟩
  · intro j hj
    rw [hslots j hj]
    exact ⟨by decide, rfl⟩

theorem fullFiles_cases {v : View} (h : fullFiles i = some v) :
    i = 1 ∧ v = rootView ∨ i = 2 ∧ v = view fullDisk (fullInode 2) ∨
      i = 3 ∧ v = view fullDisk (bigInode 47) ∨ i = 4 ∧ v = view fullDisk (bigInode 304) := by
  by_cases hi : 1 ≤ i ∧ i < 5
  · rw [fullFiles_eq hi] at h
    have hv := (some.inj h).symm
    have hcases : i = 1 ∨ i = 2 ∨ i = 3 ∨ i = 4 := by omega
    rcases hcases with rfl | rfl | rfl | rfl
    · exact .inl ⟨rfl, hv⟩
    · exact .inr (.inl ⟨rfl, hv⟩)
    · exact .inr (.inr (.inl ⟨rfl, hv⟩))
    · exact .inr (.inr (.inr ⟨rfl, hv⟩))
  · rw [fullFiles_none hi] at h
    cases h

theorem full_rooted : Rooted 200 ⟨fullFiles, [], none, false, false⟩ where
  bound i v hi := by
    have := fullFiles_cases hi
    omega
  tree := by
    change NameTree.Tree ROOTINO (liveDirs fullFiles)
    rw [fullFiles_liveDirs]
    exact fullTree_tree
  dots d v hd hlive := by
    rcases fullFiles_cases hd with ⟨rfl, rfl⟩ | ⟨rfl, rfl⟩ | ⟨rfl, rfl⟩ | ⟨rfl, rfl⟩
    · exact rootView_dots
    · exact absurd hlive (by decide)
    · exact big3.dots
    · exact big4.dots
  dead d v hd hdir hlive := by
    rcases fullFiles_cases hd with ⟨rfl, rfl⟩ | ⟨rfl, rfl⟩ | ⟨rfl, rfl⟩ | ⟨rfl, rfl⟩
    · exact absurd rootView_live hlive
    · exact absurd hdir (by decide)
    all_goals exact absurd Big.live hlive
  count j hj := by
    change nlinkOf (fullFiles j) = refs (range 200) (liveDirs fullFiles) j + _
    rw [fullFiles_liveDirs, fullTree_refs, rootNode_refs, bigNode_refs]
    by_cases hj5 : 1 ≤ j ∧ j < 5
    · rw [fullFiles_eq hj5]
      have hcases : j = 1 ∨ j = 2 ∨ j = 3 ∨ j = 4 := by omega
      rcases hcases with rfl | rfl | rfl | rfl <;> rfl
    · rw [fullFiles_none hj5]
      simp only [reduceCtorEq, if_false]
      rw [if_neg (by omega), if_neg (by omega), if_neg (by omega), if_neg (by omega),
        if_neg (by omega)]
      rfl
  extra i hi := by cases hi
  freed l hl := by cases hl

theorem full_entries {v : View} (hi : fullFiles i = some v) (hdir : v.type = T_DIR) :
    v.size % 16 = 0 ∧ ∀ k, k < v.nents → (v.entry k).inum.toNat < 200 := by
  have hbig : ∀ {num base}, Big num base → num < 5 → ∀ k, k < 16384 →
      ((view fullDisk (bigInode base)).entry k).inum.toNat < 200 := by
    intro num base h hnum k hk
    rw [h.entry_eq hk]
    unfold bigEntry
    split_ifs
    · rw [toNat_ofNat16 (hnum.trans (by decide : 5 < 200)) (by decide)]
      omega
    · decide
    · exact (by decide : (2 : UInt16).toNat < 200)
  rcases fullFiles_cases hi with ⟨rfl, rfl⟩ | ⟨rfl, rfl⟩ | ⟨rfl, rfl⟩ | ⟨rfl, rfl⟩
  · refine ⟨by decide, ?_⟩
    have hall : ∀ k, k < 7 → (rootView.entry k).inum.toNat < 200 := by decide +kernel
    exact hall
  · exact absurd hdir (by decide)
  · exact ⟨by decide, fun k hk => hbig big3 (by decide) k (Big.nents_eq ▸ hk)⟩
  · exact ⟨by decide, fun k hk => hbig big4 (by decide) k (Big.nents_eq ▸ hk)⟩

theorem full_tree : TreeImage Mkfs.sb fullDisk where
  toConsistent := .of_img full_img fun _ _ hi hdir => (full_entries hi hdir).2
  whole _ _ hi hdir := (full_entries hi hdir).1
  inums := by decide
  rooted := full_rooted

def linkOnce : Call := .link [102, 0] [120, 0]

theorem link_count_wraps : TreeImage Mkfs.sb fullDisk ∧
    ∃ s, syscall Mkfs.sb p0 linkOnce (boot fullDisk) = .ok (0, s) ∧
      (dinodeAt Mkfs.sb s.disk 2).nlink.toInt = -32768 ∧
      (dinodeAt Mkfs.sb s.disk 2).nlink.toInt ≠ entryCount Mkfs.sb.ninodes (s.files Mkfs.sb) 2 ∧
      call Mkfs.sb s (p0, .unlink [120, 0]) = some (.error (.panic .unlinkNlink)) := by
  have hexec : (syscall Mkfs.sb p0 linkOnce (boot fullDisk)).toOption.map (fun x =>
      (x.1, (dinodeAt Mkfs.sb x.2.disk 2).nlink,
        stopOf (call Mkfs.sb x.2 (p0, .unlink [120, 0])))) =
      some (0, -32768, some (.panic .unlinkNlink)) := by decide +kernel
  cases hr : syscall Mkfs.sb p0 linkOnce (boot fullDisk) with
  | error x =>
    rw [hr] at hexec
    cases hexec
  | ok x =>
    obtain ⟨r, s⟩ := x
    rw [hr] at hexec
    simp only [Except.toOption, Option.map_some, Option.some.injEq, Prod.mk.injEq] at hexec
    obtain ⟨rfl, hlink, hstop⟩ := hexec
    have hneg : (dinodeAt Mkfs.sb s.disk 2).nlink.toInt = -32768 := by
      rw [hlink]
      decide
    refine ⟨full_tree, s, rfl, hneg, ?_, eq_of_stop hstop⟩
    omega

theorem link_counts_never_wrap_demo :
    ∃ s, Run (Step Mkfs.sb) (boot demoImage) demoCalls s ∧
      (∀ i v, s.files Mkfs.sb i = some v →
        v.nlink.toInt = entryCount Mkfs.sb.ninodes (s.files Mkfs.sb) i) ∧
      ∀ l, call Mkfs.sb s l ≠ some (.error (.panic .unlinkNlink)) := by
  obtain ⟨s, hrun, hreg⟩ := demo_regular
  have h := link_counts_never_wrap Mkfs.sb demoImage demoImage_tree demoCalls s hrun hreg
  exact ⟨s, hrun, h.1, h.2.1⟩

end Full

end Xv6.Fs
