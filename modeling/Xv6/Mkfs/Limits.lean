import Xv6.Mkfs.Root

namespace Xv6.Mkfs

open ByteCodec Hoare Fs Function List

/-- The image ends within the limits of the superblock: the inodes allocated, which are those below
`freeinode`, the blocks they refer to, and the blocks marked in the bitmap. -/
structure Contained (s : State) : Prop where
  inodes : ∀ i, 0 < i → i < s.freeinode → i < sb.ninodes
  blocks : ∀ i, 0 < i → i < s.freeinode → ∀ k, slot s.disk (dinodeAt sb s.disk i) k ≠ 0 →
    nmeta ≤ (slot s.disk (dinodeAt sb s.disk i) k).toNat ∧
      (slot s.disk (dinodeAt sb s.disk i) k).toNat < sb.size
  marked : ∀ b, b < BPB → (testBit (s.disk sb.bmapstart) b = true ↔ b < s.freeblock)

variable {s s' : State} {room : Prop} {names : List (List UInt8)}

theorem Progress.contained (h : Progress s names) (hlt : names.length + 1 < NINODES)
    (hd : s'.disk = putDinode sb (image s) ROOTINO (roundedRoot s))
    (hfi : s'.freeinode = s.freeinode) (hfb : s'.freeblock = s.freeblock) : Contained s' where
  inodes i _ hi := by
    rw [hfi, h.freeinode] at hi
    change i < NINODES
    omega
  blocks i hpos hi k hk := by
    have hal : Allocated sb (inodes s) i := by
      by_cases hroot : i = ROOTINO
      · rw [hroot]
        exact h.root_allocated
      · unfold ROOTINO at hroot
        obtain ⟨v, hv, -⟩ := h.plain i (by omega) (by rw [← h.freeinode, ← hfi]; exact hi)
        exact (filesOf_eq_some.mp hv).1
    rw [h.slot_eq hd hal] at hk ⊢
    obtain ⟨hge, hsz, -⟩ := h.made.built.img.slot_mem hal hk
    exact ⟨sb_nmeta ▸ hge, hsz⟩
  marked b hb := by
    have hroot : sb.iblock ROOTINO < sb.bmapstart := sb.iblock_lt (by decide)
    have hle := h.made.built.le
    have hbpb := FSSIZE_le_BPB
    have hmap : s'.disk sb.bmapstart = bitmap s.freeblock := by
      rw [hd, putDinode, update_of_ne (by omega), image, update_self]
    rw [hmap, testBit_bitmap (by omega) hb, hfb, decide_eq_true_iff]

section Count

/-- The number of inodes allocated stays the same. -/
def SameInodes (s s' : State) : Prop := s'.freeinode = s.freeinode

instance : IsPreorder State SameInodes where
  refl _ := rfl
  trans _ _ _ h h' := Eq.trans h' h

theorem wsect_count (sec : Nat) (buf : Block) : Keeps SameInodes (wsect sec buf) :=
  .modify fun _ => rfl

theorem rsect_count (sec : Nat) : Keeps SameInodes (rsect sec) :=
  .bind .get fun _ => .ite (.pure _) (.throw _)

theorem takeBlock_count : Keeps SameInodes takeBlock := ⟨fun _ => rfl⟩

theorem winode_count (inum : Nat) (ip : Dinode) : Keeps SameInodes (winode inum ip) :=
  (rsect_count _).bind fun _ => wsect_count _ _

theorem indirectBlock_count (din : Dinode) : Keeps SameInodes (indirectBlock din) :=
  .ite (takeBlock_count.bind fun _ => .pure _) (.pure _)

theorem fileBlock_count (din : Dinode) (fbn : Nat) : Keeps SameInodes (fileBlock din fbn) := by
  unfold fileBlock
  split
  · exact .ite (takeBlock_count.bind fun _ => .pure _) (.pure _)
  · exact (indirectBlock_count din).bind fun _ => (rsect_count _).bind fun _ =>
      .ite (takeBlock_count.bind fun _ => (wsect_count _ _).bind fun _ => .pure _) (.pure _)

theorem iappendLoop_count (fuel : Nat) (din : Dinode) (off : Nat) (p : List UInt8) :
    Keeps SameInodes (iappendLoop fuel din off p) := by
  induction fuel generalizing din off p with
  | zero => exact .ite (.throw _) (.pure _)
  | succ fuel ih =>
    refine .ite (.ite ?_ (.throw _)) (.pure _)
    exact (fileBlock_count _ _).bind fun _ => (rsect_count _).bind fun _ =>
      (wsect_count _ _).bind fun _ => ih _ _ _

theorem iappend_count (inum : Nat) (p : List UInt8) : Keeps SameInodes (iappend inum p) :=
  .bind (.bind (rsect_count _) fun _ => .pure _) fun _ =>
    (iappendLoop_count _ _ _ _).bind fun _ => winode_count _ _

theorem appendAll_count (inum : Nat) (bufs : List (List UInt8)) :
    Keeps SameInodes (appendAll inum bufs) := by
  induction bufs with
  | nil => exact .pure _
  | cons buf bufs ih => exact (iappend_count _ _).bind fun _ => ih

theorem addFile_count (rootino : Nat) (file : Input) :
    Wp Any (addFile rootino file) s fun _ s' => s'.freeinode = s.freeinode + 1 := by
  unfold addFile
  by_cases hslash : slash ∈ shortname file.argv
  · rw [if_pos hslash]
    trivial
  rw [if_neg hslash]
  cases file.contents with
  | none => trivial
  | some bufs =>
    by_cases hlen : (filename file.argv).length ≤ DIRSIZ
    · simp only [if_pos hlen]
      rw [wp_bind, ialloc, wp_bind, wp_get, wp_bind, wp_set]
      refine ((winode_count _ _).wp _).bind ?_
      intro _ s1 h1
      rw [wp_pure]
      refine ((iappend_count _ _).wp s1).bind ?_
      intro _ s2 h2
      refine ((appendAll_count _ bufs).wp s2).mono ?_
      intro _ s3 h3
      exact h3.trans (h2.trans h1)
    · simp only [if_neg hlen]
      trivial

theorem addFiles_count (rootino : Nat) (files : List Input) :
    Wp Any (addFiles rootino files) s fun _ s' =>
      s'.freeinode = s.freeinode + files.length := by
  induction files generalizing s with
  | nil => rfl
  | cons file files ih =>
    rw [addFiles]
    refine (addFile_count rootino file).bind ?_
    intro _ s1 h1
    refine ih.mono ?_
    intro _ s2 h2
    rw [h2, h1, length_cons]
    omega

theorem finish_count (files : List Input) :
    Wp Any (finish files) s fun _ s' => s'.freeinode = s.freeinode + files.length := by
  rw [finish]
  refine (addFiles_count _ files).bind ?_
  intro _ s1 h1
  have hroot : Keeps SameInodes (fixRoot ROOTINO) :=
    .bind (.bind (rsect_count _) fun _ => .pure _) fun _ => winode_count _ _
  have hmap : ∀ used, Keeps SameInodes (balloc used) := fun _ => .ite (wsect_count _ _) (.throw _)
  refine ((hroot.bind fun _ => Keeps.get.bind fun s => hmap s.freeblock).wp s1).mono ?_
  intro _ s2 h2
  exact h2.trans h1

theorem main_count {files : List Input} {m : MkfsM PUnit} (hm : main files = m) :
    Wp Any m ⟨fun _ => zeroes, 0, 1, nmeta⟩ fun _ s' =>
      s'.freeinode = files.length + 2 := by
  have hstart : Wp (Unless False) m ⟨fun _ => zeroes, 0, 1, nmeta⟩ fun _ s' =>
      s'.freeinode = files.length + 2 := by
    apply main_start hm
    intro s hp _
    refine Wp.errors ((finish_count files).mono ?_) fun _ _ => id
    intro _ s' hs'
    rw [hs', hp.freeinode]
    exact Nat.add_comm _ _
  exact hstart.errors fun _ _ => trivial

end Count

/-- What fits. For every list of files for which `mkfs` succeeds, the image ends within the limits
of the superblock exactly if there are fewer than `NINODES` inodes. -/
theorem mkfs_contained_iff {files : List Input}
    (h : main files ⟨fun _ => zeroes, 0, 1, nmeta⟩ = .ok (⟨⟩, s)) :
    Contained s ↔ files.length + 1 < NINODES := by
  generalize hm : main files = m at h
  have hcount : s.freeinode = files.length + 2 := (main_count hm).result h
  constructor
  · intro hc
    exact hc.inodes (files.length + 1) (Nat.succ_pos _) (by omega)
  · intro hlt
    obtain ⟨s0, hp, -, hd, hfi, hfb⟩ := (main_spec hm hlt False.elim).result h
    exact hp.contained (by rwa [List.length_map]) hd hfi hfb

theorem mkfs_contained_iff_one : ∃ s,
    main (emptyFiles 1) ⟨fun _ => zeroes, 0, 1, nmeta⟩ = .ok (⟨⟩, s) ∧ Contained s := by
  obtain ⟨s, hs⟩ : ∃ s, main (emptyFiles 1) ⟨fun _ => zeroes, 0, 1, nmeta⟩ = .ok (⟨⟩, s) :=
    main_ok rfl (by decide) (by decide) (by decide)
  exact ⟨s, hs, (mkfs_contained_iff hs).mpr (by decide)⟩

section Overflow

/-- The inode blocks have room for a few more inodes than `NINODES`. -/
theorem ialloc_past (h : Made s) (hge : NINODES ≤ s.freeinode)
    (hlt : s.freeinode < ninodeblocks * IPB) (type : Int16) :
    Wp (Unless room) (ialloc type) s fun r s' => r = s.freeinode ∧ Made s' ∧
      s'.freeinode = s.freeinode + 1 ∧ s'.freeblock = s.freeblock ∧ filesOf s' = filesOf s := by
  generalize hip : (⟨type, 0, 0, 1, 0, fun _ => 0⟩ : Dinode) = ip
  have hsame : ∀ j, j < NINODES → update (inodes s) s.freeinode ip j = inodes s j :=
    fun j hj => update_of_ne (by omega) ..
  obtain ⟨himg, hfiles⟩ := h.built.img.congr_ino hsame
  have hself : update (inodes s) s.freeinode ip s.freeinode = ip := update_self ..
  have hb1 : Built { s with freeinode := s.freeinode + 1 } (update (inodes s) s.freeinode ip) :=
    ⟨himg, h.built.nsect, h.built.ge, h.built.le, h.built.fresh⟩
  have hblock : sb.iblock s.freeinode < sb.bmapstart := by
    have hdiv : s.freeinode / IPB < ninodeblocks := Nat.div_lt_of_lt_mul (by rwa [Nat.mul_comm] at hlt)
    change s.freeinode / IPB + (2 + nlog) < 2 + nlog + ninodeblocks
    omega
  rw [ialloc, wp_bind, wp_get, wp_bind, wp_set, wp_bind, hip, ← hself]
  refine (winode_spec hb1 hblock ?_).mono ?_
  · intro j _ hji
    rw [update_of_ne hji]
    rfl
  rintro _ s' ⟨hb', hfiles', hino', hhigh, hfi, hfb⟩
  rw [wp_pure]
  refine ⟨rfl, ⟨hb', ?_⟩, hfi, hfb, hfiles'.trans hfiles⟩
  intro j hj
  have hj0 : inodes s' j = inodes s j := (hino' j hj.1).trans (hsame j hj.1)
  have hal : Allocated sb (inodes s) j := ⟨hj.1, hj0 ▸ hj.2⟩
  rw [hj0]
  exact (h.tight j hal).congr (h.built.blockAt_eq hal hhigh)

theorem addFiles_append (rootino : Nat) (files more : List Input) :
    addFiles rootino (files ++ more) = (do addFiles rootino files; addFiles rootino more) := by
  induction files with
  | nil => rfl
  | cons file files ih =>
    rw [cons_append, addFiles, addFiles, ih, bind_assoc]

theorem addFile_past {done : List Input} (h : Progress s (done.map fun file => filename file.argv))
    (hlen : done.length + 2 = NINODES) (hblocks : s.freeblock + 1 ≤ FSSIZE) {argv : List UInt8}
    (hslash : slash ∉ shortname argv) (hname : (filename argv).length ≤ DIRSIZ) :
    Wp (Unless room) (addFile ROOTINO ⟨argv, some []⟩) s fun _ s' => Made s' := by
  have hfi := h.freeinode
  rw [length_map, hlen] at hfi
  have hlast : NINODES < ninodeblocks * IPB := by decide
  obtain ⟨v, hroot, -, -, hlists⟩ := h.root
  have hsize := hlists.size
  rw [length_rootEntries, length_map, hlen] at hsize
  rw [addFile, if_neg hslash]
  simp only [if_pos hname]
  refine (ialloc_past h.made (by omega) (by omega) _).bind ?_
  rintro inum s1 ⟨-, hmade1, -, hfb1, hfiles1⟩
  refine (iappend_dirent hmade1 (hfiles1 ▸ hroot) hsize _ _ fun _ => ?_).bind ?_
  · have hroom : blocksFor (16 * NINODES + 16) ≤ 1 + blocksFor (16 * NINODES) ∧
        16 * NINODES < MAXFILE * BSIZE := by decide
    omega
  · rintro _ s2 ⟨hmade2, -⟩
    exact hmade2

theorem emptyFiles_succ (n : Nat) :
    emptyFiles (n + 1) = emptyFiles n ++ [⟨[97, UInt8.ofNat (48 + n)], some []⟩] := by
  simp [emptyFiles, range_succ]

theorem main_emptyFiles {m : MkfsM PUnit} (hm : main (emptyFiles 199) = m) :
    ∃ s, m ⟨fun _ => zeroes, 0, 1, nmeta⟩ = .ok (⟨⟩, s) := by
  have hlen : (emptyFiles 198).length = 198 := by simp [emptyFiles]
  have hwp : Wp (Unless True) m ⟨fun _ => zeroes, 0, 1, nmeta⟩ fun _ _ => True := by
    apply main_start hm
    intro s hp hst
    rw [finish, emptyFiles_succ, addFiles_append, wp_bind]
    refine (addFiles_spec hp hst (emptyFiles 198) (by decide +kernel)
      fun _ => ⟨by decide +kernel, by decide +kernel⟩).bind ?_
    rintro _ s1 ⟨hp1, hst1⟩
    rw [nil_append] at hp1 hst1
    have hfb : s1.freeblock + 1 ≤ FSSIZE := by
      rw [hst1.freeblock]
      decide +kernel
    rw [addFiles]
    refine (addFile_past hp1 (by rw [hlen]; rfl) hfb (by decide) (by decide)).bind ?_
    intro _ s2 hmade
    refine (fixRoot_balloc_spec hmade).mono ?_
    intro _ _ _
    trivial
  cases hr : m ⟨fun _ => zeroes, 0, 1, nmeta⟩ with
  | error e => exact absurd trivial (hwp.error hr)
  | ok r => exact ⟨r.2, rfl⟩

/-- With 199 empty files `mkfs` succeeds, and the last of them has the inode number 200. -/
theorem mkfs_passes_ninodes : ∃ s,
    main (emptyFiles 199) ⟨fun _ => zeroes, 0, 1, nmeta⟩ = .ok (⟨⟩, s) ∧
      sb.ninodes < s.freeinode ∧ ¬ Contained s := by
  generalize hm : main (emptyFiles 199) = m
  obtain ⟨s, hs⟩ := main_emptyFiles hm
  have hfi : s.freeinode = 201 := by
    rw [(main_count hm).result hs]
    simp [emptyFiles]
  refine ⟨s, hs, by rw [hfi]; decide, fun hc => ?_⟩
  have := hc.inodes 200 (by decide) (by omega)
  exact absurd this (by decide)

end Overflow

end Xv6.Mkfs
