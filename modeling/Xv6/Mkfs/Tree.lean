import Xv6.Kernel.Fs.Links
import Xv6.Mkfs.Root

namespace Xv6.Mkfs

open ByteCodec Hoare Fs Transition NameTree Ownership Function List

variable {s : State} {names : List (List UInt8)} {d : Disk} {i : Nat}

section Rounded

variable (hd : d = putDinode sb (image s) ROOTINO (roundedRoot s))
include hd

theorem data_eq {b : Nat} (hb : sb.nmeta ≤ b) : d b = image s b := by
  have h1 : sb.iblock ROOTINO < sb.bmapstart := sb.iblock_lt (by decide)
  have h2 := sb.bmapstart_lt
  rw [hd]
  exact update_of_ne (by omega) ..

theorem used_eq (b : Nat) : used sb d b = used sb (image s) b := by
  have h1 : sb.iblock ROOTINO < sb.bmapstart := sb.iblock_lt (by decide)
  have h2 := sb.bblock_ge b
  unfold used
  rw [hd, putDinode, update_of_ne (by omega)]

variable (h : Progress s names)
include h

theorem Progress.place_eq (p : Nat × Nat) :
    place sb d (dinodeAt sb d) p = place sb (image s) (inodes s) p := by
  unfold place
  by_cases hp : Allocated sb (inodes s) p.1
  · have hp' := (allocated_rounded hd p.1).mpr hp
    simp only [hp, hp', true_and, h.slot_eq hd hp]
  · have hp' := fun hal => hp ((allocated_rounded hd p.1).mp hal)
    rw [if_neg fun hh => hp' hh.1, if_neg fun hh => hp hh.1]

theorem Progress.img (hfull : (names.length + 2) % 64 ≠ 0) : Img sb d (dinodeAt sb d) where
  excl := by
    have hexcl := h.made.built.img.excl
    refine ⟨?_, fun b => ?_⟩
    · intro p q b hp hq
      rw [h.place_eq hd] at hp hq
      exact hexcl.inj p q b hp hq
    · have hmem := hexcl.mem_iff b
      simp only [dataInUse, Set.mem_ofPred_eq, used_eq hd, h.place_eq hd] at hmem ⊢
      exact hmem
  metaUsed b hb := by
    rw [used_eq hd]
    exact h.made.built.img.metaUsed b hb
  bound i hi := by
    have hb := h.made.built.img.bound i ((allocated_rounded hd i).mp hi)
    by_cases hir : i = ROOTINO
    · rw [hir, h.root_size] at hb
      rw [hir, dinodeAt_root hd, h.rounded_size]
      unfold MAXFILE NDIRECT NINDIRECT BSIZE at *
      omega
    · rw [dinodeAt_other hd hir]
      exact hb
  noHole := (h.noHole_iff hd).mpr hfull

theorem Progress.view_data (hi : Allocated sb (inodes s) i) (bn : Nat) :
    (view d (dinodeAt sb d i)).data bn = (view (image s) (inodes s i)).data bn := by
  unfold view
  simp only [h.blockAt_eq hd hi]
  split_ifs with h0
  · rfl
  · rw [blockAt_eq_slot] at h0 ⊢
    rw [data_eq hd (h.made.built.img.slot_mem hi h0).1]

theorem Progress.files_other (hi : i ≠ ROOTINO) : files sb d (dinodeAt sb d) i = filesOf s i := by
  unfold filesOf files
  by_cases hal : Allocated sb (inodes s) i
  · rw [if_pos hal, if_pos ((allocated_rounded hd i).mpr hal)]
    apply congrArg some
    apply view_congr
    · rw [dinodeAt_other hd hi]
      exact .refl _
    · exact h.view_data hd hal
  · rw [if_neg hal, if_neg fun h' => hal ((allocated_rounded hd i).mp h')]

theorem Progress.files_root :
    ∃ v, files sb d (dinodeAt sb d) ROOTINO = some v ∧ v.type = T_DIR ∧ v.nlink = 1 ∧
      v.size % 16 = 0 ∧ names.length + 2 ≤ v.nents ∧
      ∀ k, v.entry k = (rootEntries names).getD k .zero := by
  obtain ⟨v, hv, hdir, hlink, hlists⟩ := h.root
  have hal := (allocated_rounded hd ROOTINO).mpr h.root_allocated
  obtain ⟨-, rfl⟩ := filesOf_eq_some.mp hv
  have hsize : (view d (dinodeAt sb d ROOTINO)).size =
      (16 * (names.length + 2) / BSIZE + 1) * BSIZE := by
    rw [← h.rounded_size, ← dinodeAt_root hd]
    rfl
  refine ⟨_, files_of_allocated hal, ?_, ?_, ?_, ?_, fun k => ?_⟩
  · rw [dinodeAt_root hd]
    exact hdir
  · rw [dinodeAt_root hd]
    exact hlink
  · rw [hsize]
    unfold BSIZE
    omega
  · rw [View.nents, hsize]
    unfold BSIZE
    omega
  · rw [← hlists.entry k]
    unfold View.entry
    rw [h.view_data hd h.root_allocated]

end Rounded

theorem rootEntries_getD (k : Nat) : (rootEntries names).getD (k + 2) .zero =
    if h : k < names.length then ⟨UInt16.ofNat (k + 2), strncpy names[k]⟩ else .zero := by
  unfold rootEntries
  rw [getD_cons_succ, getD_cons_succ, getD_eq_getElem?_getD, getElem?_mapIdx]
  split_ifs with hk
  · rw [getElem?_eq_getElem hk]
    rfl
  · rw [getElem?_eq_none (by omega)]
    rfl

section

variable {v : View} (hlen : names.length + 2 ≤ NINODES) (hnents : names.length + 2 ≤ v.nents)
  (hentry : ∀ k, v.entry k = (rootEntries names).getD k .zero)
include hlen hnents hentry

theorem root_slots :
    v.node.slots = (range names.length).map (fun k => some (k + 2)) ++
      replicate (v.nents - 2 - names.length) none := by
  apply ext_getElem?
  intro k
  have hn : NINODES ≤ 2 ^ 16 := by decide
  rw [View.slots_getElem?, hentry, rootEntries_getD]
  by_cases hk : k < names.length
  · rw [if_pos (by omega), dif_pos hk, getElem?_append_left (by simpa using hk),
      getElem?_map, getElem?_range hk]
    refine congrArg some (Dirent.target_eq_some.mpr ⟨?_, ?_⟩)
    · exact ofNat16_ne_zero (by omega) (by omega : k + 2 < NINODES) hn
    · exact toNat_ofNat16 (by omega : k + 2 < NINODES) hn
  rw [dif_neg hk, getElem?_append_right (by simpa using hk), getElem?_replicate]
  simp only [length_map, length_range]
  by_cases hlt : k + 2 < v.nents
  · rw [if_pos hlt, if_pos (by omega)]
    rfl
  · rw [if_neg hlt, if_neg (by omega)]

theorem root_count (j : Nat) :
    v.node.slots.count (some j) = if 2 ≤ j ∧ j < names.length + 2 then 1 else 0 := by
  have hfree : (replicate (v.nents - 2 - names.length) none).count (some j) = 0 := by
    simp [count_replicate]
  rw [root_slots hlen hnents hentry, count_append, hfree, Nat.add_zero]
  have hinj : Injective fun k : Nat => some (k + 2) := by
    intro k l hkl
    simpa using hkl
  by_cases hj : 2 ≤ j
  · have hcount := count_map_of_injective (range names.length) _ hinj (j - 2)
    simp only [Nat.sub_add_cancel hj] at hcount
    rw [hcount, nodup_range.count]
    simp only [mem_range]
    split_ifs <;> omega
  · rw [if_neg fun h => hj h.1, count_eq_zero_of_not_mem]
    simp only [mem_map, mem_range, Option.some.injEq, not_exists, not_and]
    intro k _
    omega

end

theorem rootEntries_inum (hlt : names.length + 1 < NINODES) (k : Nat) :
    ((rootEntries names).getD k .zero).inum.toNat < NINODES := by
  match k with
  | 0 | 1 => exact (by decide : 1 < NINODES)
  | k + 2 =>
    rw [rootEntries_getD]
    split_ifs with hk
    · exact ofNat_lt (by omega)
    · exact (by decide : 0 < NINODES)

/-- The image of `mkfs` if the root directory is not full. -/
theorem mkfs_tree {files : List Input} (h : mkfs files = .ok d)
    (hlt : files.length + 1 < NINODES) (hfull : (files.length + 2) % 64 ≠ 0)
    (hnames : ∀ file ∈ files, strncpy (filename file.argv) ≠ dot ∧
      strncpy (filename file.argv) ≠ dotdot) : TreeImage sb d := by
  obtain ⟨s, hp, -, hd⟩ := mkfs_progress h hlt
  generalize hns : (files.map fun file => filename file.argv) = names at hp
  have hlen : names.length = files.length := by
    rw [← hns, length_map]
  rw [← hlen] at hlt hfull
  have hnames' : ∀ name ∈ names, strncpy name ≠ dot ∧ strncpy name ≠ dotdot := by
    rw [← hns]
    intro name hname
    obtain ⟨file, hfile, rfl⟩ := mem_map.mp hname
    exact hnames file hfile
  have himg := hp.img hd hfull
  obtain ⟨v, hroot, hdir, hlink, hsize, hnents, hentry⟩ := hp.files_root hd
  have hfile : ∀ i w, i ≠ ROOTINO → Fs.files sb d (dinodeAt sb d) i = some w →
      (0 < i ∧ i < sb.ninodes) ∧ w.type ≠ T_DIR ∧ w.nlink = 1 := by
    intro i w hi hw
    have hal := (files_eq_some.mp hw).1
    rw [hp.files_other hd hi] at hw
    by_cases hrange : 2 ≤ i ∧ i < names.length + 2
    · obtain ⟨u, hu, htype, hone⟩ := hp.plain i hrange.1 hrange.2
      rw [hu] at hw
      cases hw
      exact ⟨⟨by omega, hal.1⟩, by rw [htype]; decide, hone⟩
    · rw [hp.rest i (by unfold ROOTINO at hi; omega)] at hw
      cases hw
  have honly : ∀ {i w}, Fs.files sb d (dinodeAt sb d) i = some w → w.type = T_DIR → w = v := by
    intro i w hw hwdir
    by_cases hi : i = ROOTINO
    · rw [hi, hroot] at hw
      cases hw
      rfl
    · exact absurd hwdir (hfile i w hi hw).2.1
  refine ⟨.of_img himg ?_, ?_, by decide, ?_⟩
  · intro i w hw hwdir k _
    rw [honly hw hwdir, hentry]
    exact rootEntries_inum hlt k
  · intro i w hw hwdir
    rw [honly hw hwdir]
    exact hsize
  refine Rooted.flat hroot ⟨hdir, by rw [hlink]; decide⟩ hlink ?_ (by decide) ?_ hfile ?_
  · refine ⟨by omega, hentry 0, ?_, ?_⟩
    · rw [hentry]
      exact ⟨(by decide : (1 : UInt16) ≠ 0), rfl⟩
    intro k hk2 _ hne
    obtain ⟨l, rfl⟩ : ∃ l, k = l + 2 := ⟨k - 2, by omega⟩
    rw [hentry, rootEntries_getD] at hne ⊢
    split_ifs at hne ⊢ with hl
    · exact hnames' _ (getElem_mem hl)
    · exact absurd rfl hne
  · change (v.entry 1).inum.toNat = _
    rw [hentry]
    rfl
  intro j hj
  rw [root_count (by omega) hnents hentry]
  apply if_congr _ rfl rfl
  by_cases hjr : j = ROOTINO
  · subst hjr
    simp [ROOTINO]
  rw [hp.files_other hd hjr]
  by_cases hrange : 2 ≤ j ∧ j < names.length + 2
  · obtain ⟨u, hu, -⟩ := hp.plain j hrange.1 hrange.2
    rw [hu]
    exact iff_of_true hrange ⟨hjr, rfl⟩
  · rw [hp.rest j (by unfold ROOTINO at hjr; omega)]
    exact iff_of_false hrange (by simp)

/-- Link counts and tree shape. From an image of `mkfs`, after any run of system calls in which
entries are added to live directories only and no link count of 32767 is incremented, every link
count is the number of entries that refer to the inode, and the live directories form a tree. -/
theorem mkfs_runs_keep_link_tree {files : List Input} (h : mkfs files = .ok d)
    (hlt : files.length + 1 < NINODES) (hfull : (files.length + 2) % 64 ≠ 0)
    (hnames : ∀ file ∈ files, strncpy (filename file.argv) ≠ dot ∧
      strncpy (filename file.argv) ≠ dotdot)
    (calls : List (Fin NPROC × Call)) (s : Fs.State) (hrun : Run (Step sb) (boot d) calls s)
    (hdead : s.hist.deadParent = false) (hmax : s.hist.linkMax = false) :
    LinkTree sb.ninodes (s.files sb) :=
  ((mkfs_tree h hlt hfull hnames).run hrun ⟨hdead, hmax⟩).linkTree rfl

def demoFiles : List Input :=
  [⟨[82, 69, 65, 68, 77, 69], some [[72, 105]]⟩, ⟨[117, 115, 101, 114, 47, 95, 99, 97, 116], some []⟩]

theorem mkfs_runs_keep_link_tree_demo : ∃ d, mkfs demoFiles = .ok d ∧
    ∃ s, Run (Step sb) (boot d) [(p0, .mkdir [0])] s ∧ LinkTree sb.ninodes (s.files sb) := by
  obtain ⟨d, hd⟩ : ∃ d, mkfs demoFiles = .ok d := mkfs_ok (by decide) (by decide) (by decide)
  have hexec : (exec (call sb) (boot d) [(p0, .mkdir [0])]).map (fun s =>
      (s.hist.deadParent, s.hist.linkMax)) = some (false, false) := rfl
  obtain ⟨s, hs, hval⟩ := Option.map_eq_some_iff.mp hexec
  have hrun := run_of_exec _ _ _ _ hs
  exact ⟨d, hd, s, hrun, mkfs_runs_keep_link_tree hd (by decide) (by decide) (by decide) _ s hrun
    (congrArg Prod.fst hval) (congrArg Prod.snd hval)⟩

end Xv6.Mkfs
