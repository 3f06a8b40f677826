import Xv6.Mkfs.Tree

namespace Xv6.Fs

open ByteCodec Hoare List

variable {name : List UInt8}

section Names

/-- Strings of at most `n` bytes that `strncmp` finds equal are equal. -/
theorem eq_of_strncmp {n : Nat} {p q : List UInt8} (hp : 0 ∉ p) (hq : 0 ∉ q) (hpn : p.length ≤ n)
    (hqn : q.length ≤ n) (h : strncmp n p q = 0) : p = q := by
  induction n generalizing p q with
  | zero =>
    rw [length_eq_zero_iff.mp (Nat.le_zero.mp hpn), length_eq_zero_iff.mp (Nat.le_zero.mp hqn)]
  | succ n ih =>
    rw [strncmp] at h
    cases p with
    | nil =>
      cases q with
      | nil => rfl
      | cons d q =>
        have hd : d.toNat = 0 := by simpa using h
        exact absurd (mem_cons.mpr (.inl (UInt8.toNat_inj.mp hd).symm)) hq
    | cons c p =>
      have hc : c ≠ 0 := fun h0 => hp (mem_cons.mpr (.inl h0.symm))
      cases q with
      | nil =>
        have hc0 : c.toNat = 0 := by simpa [hc] using h
        exact absurd (UInt8.toNat_inj.mp hc0) hc
      | cons d q =>
        by_cases hcd : c = d
        · have hgo : (c :: p).headD 0 ≠ 0 ∧ (c :: p).headD 0 = (d :: q).headD 0 := ⟨hc, hcd⟩
          rw [if_pos hgo] at h
          rw [hcd, ih (fun h0 => hp (mem_cons_of_mem _ h0))
            (fun h0 => hq (mem_cons_of_mem _ h0)) (Nat.le_of_succ_le_succ hpn)
            (Nat.le_of_succ_le_succ hqn) h]
        · have hstop : ¬ ((c :: p).headD 0 ≠ 0 ∧ (c :: p).headD 0 = (d :: q).headD 0) :=
            fun hh => hcd hh.2
          rw [if_neg hstop] at h
          simp only [headD_cons] at h
          exact absurd (UInt8.toNat_inj.mp (by omega)) hcd

theorem ofFn_strncpy (h0 : 0 ∉ name) (hlen : name.length ≤ DIRSIZ) :
    ofFn (strncpy name) = name ++ replicate (DIRSIZ - name.length) 0 := by
  have hall : name.takeWhile (· ≠ 0) = name :=
    takeWhile_eq_self_iff.mpr fun c hc => decide_eq_true fun hz : c = 0 => h0 (hz ▸ hc)
  apply ext_getElem
  · rw [length_ofFn, length_append, length_replicate]
    omega
  · intro j h1 h2
    rw [List.getElem_ofFn, strncpy, hall, getElem_append]
    split_ifs with hj
    · rw [getD_eq_getElem _ _ hj]
    · rw [getD_eq_default _ _ (by simpa using hj), getElem_replicate]

theorem eq_of_namecmp {other : List UInt8} (h0 : 0 ∉ name) (hlen : name.length ≤ DIRSIZ)
    (h0' : 0 ∉ other) (hlen' : other.length ≤ DIRSIZ) (h : namecmp name (strncpy other) = 0) :
    name = other := by
  rw [namecmp, ofFn_strncpy h0' hlen', strncmp_pad] at h
  exact eq_of_strncmp h0 h0' hlen hlen' h

theorem skipelem_name (hne : name ≠ []) (hslash : slash ∉ name)
    (hlen : name.length ≤ DIRSIZ) : skipelem (slash :: name) = some (name, []) := by
  obtain ⟨c, cs, rfl⟩ := exists_cons_of_ne_nil hne
  have hc : c ≠ slash := fun h => hslash (mem_cons.mpr (.inl h.symm))
  have hall : ∀ x ∈ c :: cs, decide (x ≠ slash) = true :=
    fun x hx => decide_eq_true fun h : x = slash => hslash (h ▸ hx)
  have hdrop : (slash :: c :: cs).dropWhile (· = slash) = c :: cs := by
    simp [hc]
  unfold skipelem
  rw [hdrop]
  simp only
  rw [takeWhile_eq_self_iff.mpr hall, take_of_length_le hlen,
    dropWhile_eq_nil_iff.mpr hall, dropWhile_nil]

end Names

section Lookup

variable {sb : Superblock} {E : Stop → Prop} {s : State} {dp e : Fin NINODE} {v : View}

theorem readEntry_mapped (hview : view s.disk (s.inode dp).din = v) {k : Nat}
    (hk : 16 * k + 16 ≤ v.size) (hsize : v.size < 2 ^ 32)
    (hne : blockAt s.disk (s.inode dp).din (k / 64) ≠ 0) :
    Wp E (readi sb dp (fun _ _ => true) (16 * k) 16) s fun r s' => s' = s ∧ r.1 = 16 ∧
      direntOf r.2 = v.entry k := by
  subst hview
  have hk : 16 * k + 16 ≤ (s.inode dp).din.size.toNat := hk
  have hmin : min 16 ((s.inode dp).din.size.toNat - 16 * k) = 16 := by omega
  have hblock : 16 * k / BSIZE = k / 64 := by
    unfold BSIZE
    omega
  have hfit : 16 ≤ BSIZE - 16 * k % BSIZE := by
    unfold BSIZE
    omega
  refine (readi_bytes (by omega) (by omega) ?_).mono ?_
  · intro bn hlo hhi
    have hbn : bn = k / 64 := by
      unfold BSIZE at *
      omega
    rw [hbn]
    exact hne
  · rintro r s' ⟨hs, hr⟩
    rw [hmin, ← bytesFrom_data _ hfit, hblock] at hr
    rw [hr]
    exact ⟨hs, rfl, direntOf_bytesFrom _ _⟩

/-- A scan that finds the name in entry `l`, all blocks up to there being in place. -/
theorem dirlookupFrom_hit (hview : view s.disk (s.inode dp).din = v) {l : Nat}
    (hl : 16 * l + 16 ≤ v.size) (hsize : v.size < 2 ^ 32)
    (hblocks : ∀ k, k ≤ l → blockAt s.disk (s.inode dp).din (k / 64) ≠ 0)
    (hmiss : ∀ k, k < l → namecmp name (v.entry k).name ≠ 0) (hused : (v.entry l).inum ≠ 0)
    (hhit : namecmp name (v.entry l).name = 0) {Q : Option (Fin NINODE × Nat) → State → Prop}
    (hgo : Wp E (iget (s.inode dp).dev (v.entry l).inum.toNat) s
      fun e s' => Q (some (e, 16 * l)) s') (fuel k : Nat) (hk : k ≤ l) (hfuel : l < k + fuel) :
    Wp E (dirlookupFrom sb dp name fuel (16 * k)) s Q := by
  have hvsize := view_size hview
  induction fuel generalizing k with
  | zero => omega
  | succ fuel ih =>
    simp only [dirlookupFrom, wp_bind, wp_getInode, wp_ite, wp_panic, hvsize]
    rw [if_pos (by omega)]
    refine (readEntry_mapped hview (by omega) hsize (hblocks k hk)).mono ?_
    rintro ⟨r, bytes⟩ s1 ⟨hs1, hr, hde⟩
    subst hs1
    simp only at hr hde
    rw [if_neg (not_not.mpr hr)]
    simp only [hde]
    by_cases hkl : k = l
    · subst hkl
      rw [if_neg hused, if_pos hhit]
      exact hgo
    · have hnext := ih (k + 1) (by omega) (by omega)
      rw [if_neg (hmiss k (by omega)), ite_self]
      exact hnext

end Lookup

section Boot

variable {sb : Superblock} {E : Stop → Prop} {d : Disk} {s : State}

theorem ninode_pos : 0 < NINODE := by decide

def e0 : Fin NINODE := ⟨0, ninode_pos⟩

theorem iget_boot : Wp E (iget ROOTDEV ROOTINO) (boot d) fun e s => e = e0 ∧
    s = (boot d).setIp e0 ⟨ROOTDEV, ROOTINO, 2, false, false, .zero⟩ := by
  have hfind : ((finRange NINODE).find? fun e => 0 < ((boot d).inode e).ref ∧
      ((boot d).inode e).dev = ROOTDEV ∧ ((boot d).inode e).inum = ROOTINO) = some e0 := rfl
  unfold iget
  rw [wp_bind, wp_get, hfind]
  exact ⟨rfl, rfl⟩

variable {e : Fin NINODE}

theorem boot_inode_of_ne (he : e ≠ e0) : (boot d).inode e = ⟨0, 0, 0, false, false, .zero⟩ := by
  have : e.val ≠ 0 := fun h => he (Fin.ext h)
  simp only [boot, if_neg this]

/-- The state in which `namex` scans the root directory. -/
def rootOpen (sb : Superblock) (d : Disk) : State :=
  (boot d).setIp e0 ⟨ROOTDEV, ROOTINO, 2, true, true, dinodeAt sb d ROOTINO⟩

theorem rootOpen_root :
    (rootOpen sb d).inode e0 = ⟨ROOTDEV, ROOTINO, 2, true, true, dinodeAt sb d ROOTINO⟩ :=
  setIp_inode_self _ _

theorem rootOpen_of_ne (he : e ≠ e0) :
    (rootOpen sb d).inode e = ⟨0, 0, 0, false, false, .zero⟩ := by
  rw [rootOpen, setIp_inode_of_ne he, boot_inode_of_ne he]

variable {inum : Nat}

theorem iget_rootOpen (hne : inum ≠ ROOTINO) :
    Wp E (iget ROOTDEV inum) (rootOpen sb d) fun e s' => e ≠ e0 ∧
      s' = (rootOpen sb d).setIp e ⟨ROOTDEV, inum, 1, false, false, .zero⟩ := by
  have hused : ((finRange NINODE).find? fun e => 0 < ((rootOpen sb d).inode e).ref ∧
      ((rootOpen sb d).inode e).dev = ROOTDEV ∧ ((rootOpen sb d).inode e).inum = inum) = none := by
    rw [find?_eq_none]
    intro e _
    by_cases he : e = e0
    · rw [he, rootOpen_root]
      simp [hne.symm]
    · rw [rootOpen_of_ne he]
      simp
  unfold iget
  rw [wp_bind, wp_get, hused]
  simp only
  cases hfree : (finRange NINODE).find? fun e => ((rootOpen sb d).inode e).ref = 0 with
  | none =>
    have hone := find?_eq_none.mp hfree ⟨1, by decide⟩ (mem_finRange _)
    rw [rootOpen_of_ne (by decide)] at hone
    simp at hone
  | some e =>
    have he : e ≠ e0 := by
      rintro rfl
      have := find?_some hfree
      rw [rootOpen_root] at this
      simp at this
    simp only
    rw [wp_bind, wp_setInode, wp_pure, rootOpen_of_ne he]
    exact ⟨he, rfl⟩

/-- The first lock of an inode reads it from the disk. -/
theorem ilock_reads {dev ref : Nat} {din : Dinode}
    (he : s.inode e = ⟨dev, inum, ref + 1, false, false, din⟩)
    (htype : (dinodeAt sb s.disk inum).type ≠ 0) : Wp E (ilock sb e) s fun _ s' =>
      s' = s.setIp e ⟨dev, inum, ref + 1, true, true, dinodeAt sb s.disk inum⟩ := by
  have hdin : dinode.get (s.disk (sb.iblock inum)) (inum % IPB) = dinodeAt sb s.disk inum := rfl
  rw [ilock, wp_bind, wp_getInode, he, if_neg (by simp), if_neg (by simp), if_neg (by simp),
    wp_bind, wp_bread]
  simp only [hdin]
  rw [wp_bind, wp_setInode, he, if_neg htype, wp_pure]

/-- A name in the root directory is looked up. -/
theorem namei_boot (p : Fin NPROC) (hskip : skipelem (slash :: name) = some (name, []))
    (hdir : (dinodeAt sb d ROOTINO).type = T_DIR)
    (hlook : Wp E (dirlookup sb e0 name) (rootOpen sb d) fun r s' => ∃ e off, e ≠ e0 ∧
      r = some (e, off) ∧ s' = (rootOpen sb d).setIp e ⟨ROOTDEV, inum, 1, false, false, .zero⟩) :
    Wp E (namei sb p (slash :: name)) (boot d) fun r s => ∃ e, r = some e ∧ s.disk = d ∧
      s.inode e = ⟨ROOTDEV, inum, 1, false, false, .zero⟩ := by
  have hslash : (slash :: name).head? = some slash := rfl
  rw [namei, wp_bind, namex, wp_bind, wp_get, if_pos hslash]
  refine iget_boot.bind ?_
  rintro _ s ⟨rfl, rfl⟩
  rw [namexFrom, hskip]
  simp only
  refine (ilock_reads (setIp_inode_self _ _) (by rw [setIp_disk]; exact hdir ▸ by decide)).bind ?_
  intro _ s hs
  have hs : s = rootOpen sb d := by rw [hs, setIp_setIp]; rfl
  subst hs
  rw [wp_bind, wp_getInode, rootOpen_root, if_neg (not_not.mpr hdir), if_neg (by decide)]
  refine hlook.bind ?_
  rintro _ s ⟨e, off, he, rfl, rfl⟩
  simp only
  have hroot : ((rootOpen sb d).setIp e ⟨ROOTDEV, inum, 1, false, false, .zero⟩).inode e0 =
      ⟨ROOTDEV, ROOTINO, 2, true, true, dinodeAt sb d ROOTINO⟩ := by
    rw [setIp_inode_of_ne he.symm, rootOpen_root]
  rw [wp_bind, iunlockput, wp_bind, iunlock, wp_bind, wp_getInode, hroot, if_neg (by simp),
    wp_setInode, iput, wp_bind, wp_get, wp_bind, noteUnless, wp_note, wp_bind, wp_getInode]
  simp only [setIp_inode_self, hroot]
  rw [if_neg (by simp), wp_setInode, length_cons, namexFrom]
  have hend : skipelem [] = none := rfl
  rw [hend]
  simp only [Bool.false_eq_true, if_false]
  rw [wp_pure, wp_pure]
  refine ⟨e, rfl, rfl, ?_⟩
  rw [setIp_inode_of_ne he]
  change (((rootOpen sb d).setIp e _).setIp e0 _).inode e = _
  rw [setIp_inode_of_ne he, setIp_inode_self]

end Boot

end Xv6.Fs

namespace Xv6.Mkfs

open ByteCodec Hoare Fs List

variable {s : State} {d : Disk} {files : List Input}

/-- Files that fit on the disk, under names that the kernel can tell apart. The arguments are C
strings. -/
structure Suitable (files : List Input) : Prop where
  cstring : ∀ file ∈ files, 0 ∉ file.argv
  names : (files.map fun file => filename file.argv).Nodup
  name : ∀ file ∈ files, filename file.argv ≠ [] ∧ filename file.argv ≠ [46] ∧
    filename file.argv ≠ [46, 46]
  fits : ∀ file ∈ files, file.Fits
  inodes : files.length + 1 < NINODES
  blocks : blocksUsed files ≤ FSSIZE

theorem filename_subset (argv : List UInt8) : ∀ c ∈ filename argv, c ∈ shortname argv := by
  intro c hc
  unfold filename at hc
  split_ifs at hc
  · exact mem_of_mem_drop hc
  · exact hc

theorem shortname_subset (argv : List UInt8) : ∀ c ∈ shortname argv, c ∈ argv := by
  intro c hc
  unfold shortname at hc
  split_ifs at hc
  · exact mem_of_mem_drop hc
  · exact hc

/-- A name that is one element of a path. -/
structure GoodName (name : List UInt8) : Prop where
  nonempty : name ≠ []
  slash : slash ∉ name
  nul : 0 ∉ name
  length : name.length ≤ DIRSIZ

variable {file : Input}

theorem Suitable.good (h : Suitable files) (hf : file ∈ files) : GoodName (filename file.argv) where
  nonempty := (h.name file hf).1
  slash hs := (h.fits file hf).1 (filename_subset _ _ hs)
  nul h0 := h.cstring file hf (shortname_subset _ _ (filename_subset _ _ h0))
  length := (h.fits file hf).2.2.1

theorem GoodName.eq {name other : List UInt8} (h : GoodName name) (h' : GoodName other)
    (hcmp : namecmp name (strncpy other) = 0) : name = other :=
  eq_of_namecmp h.nul h.length h'.nul h'.length hcmp

theorem goodName_dot : GoodName [46] := ⟨by decide, by decide, by decide, by decide⟩

theorem goodName_dotdot : GoodName [46, 46] := ⟨by decide, by decide, by decide, by decide⟩

variable {k : Nat}

theorem rootEntries_miss {names : List (List UInt8)} (hgood : ∀ name ∈ names, GoodName name)
    (hnodup : names.Nodup) {name : List UInt8} (hk : names[k]? = some name)
    (hdot : name ≠ [46]) (hdotdot : name ≠ [46, 46]) {l : Nat} (hl : l < k + 2) :
    namecmp name ((rootEntries names).getD l .zero).name ≠ 0 := by
  obtain ⟨hlt, hget⟩ := List.getElem?_eq_some_iff.mp hk
  have hname := hgood name (mem_of_getElem? hk)
  intro hcmp
  rcases l with _ | _ | l
  · exact hdot (hname.eq goodName_dot hcmp)
  · exact hdotdot (hname.eq goodName_dotdot hcmp)
  · have hl' : l < names.length := by omega
    rw [rootEntries_getD, dif_pos hl'] at hcmp
    have heq := hname.eq (hgood _ (getElem_mem hl')) hcmp
    have := hnodup.getElem_inj_iff.mp (hget.trans heq)
    omega

theorem Starts.bytes {v : View} {l : List UInt8} (h : Starts v.data l) {off n : Nat}
    (hoff : off ≤ l.length) :
    ((range (min n (l.length - off))).map fun j => v.byte (off + j)) =
      (l.drop off).take n := by
  apply ext_getElem
  · simp
  intro j h1 h2
  have hj : off + j < l.length := by
    rw [length_map, length_range] at h1
    omega
  rw [getElem_map, getElem_range, getElem_take, getElem_drop]
  exact (h _ hj).trans (getD_eq_getElem _ _ hj)

section Mkfs

variable (hp : Progress s (files.map fun file => filename file.argv)) (hst : Stored s files)
  (hd : d = putDinode sb (image s) ROOTINO (roundedRoot s))
include hp hd

/-- The kernel finds the entry of each file in the root directory. -/
theorem Suitable.dirlookup_root {E : Stop → Prop} (h : Suitable files)
    (hk : files[k]? = some file) :
    Wp E (dirlookup sb e0 (filename file.argv)) (rootOpen sb d) fun r s' => ∃ e off, e ≠ e0 ∧
      r = some (e, off) ∧
      s' = (rootOpen sb d).setIp e ⟨ROOTDEV, k + 2, 1, false, false, .zero⟩ := by
  obtain ⟨hlt, hget⟩ := List.getElem?_eq_some_iff.mp hk
  have hmem : file ∈ files := mem_of_getElem? hk
  have hin := h.inodes
  have hn : NINODES ≤ 2 ^ 16 := by decide
  generalize hnames : (files.map fun file => filename file.argv) = names at hp
  have hlen : names.length = files.length := by rw [← hnames, length_map]
  have hkn : names[k]? = some (filename file.argv) := by
    rw [← hnames, List.getElem?_map, hk, Option.map_some]
  have hgood : ∀ name ∈ names, GoodName name := by
    rw [← hnames, forall_mem_map]
    exact fun f hf => h.good hf
  obtain ⟨v, hroot, hdir, -, -, hnents, hentry⟩ := hp.files_root hd
  obtain ⟨-, hview⟩ := files_eq_some.mp hroot
  have hsize := view_size hview
  have htype : (dinodeAt sb d ROOTINO).type = T_DIR := by rw [← hdir, ← hview]; rfl
  have hentk : v.entry (k + 2) = ⟨UInt16.ofNat (k + 2), strncpy (filename file.argv)⟩ := by
    have hget' : names[k] = filename file.argv := (List.getElem?_eq_some_iff.mp hkn).2
    rw [hentry, rootEntries_getD, dif_pos (by omega), hget']
  rw [dirlookup, wp_bind, wp_getInode, rootOpen_root]
  simp only
  rw [if_neg (not_not.mpr htype), hsize]
  unfold View.nents at hnents
  refine dirlookupFrom_hit (v := v) (l := k + 2) (by rw [rootOpen_root]; exact hview) (by omega)
    (by rw [← hsize]; exact UInt32.toNat_lt _) ?_ ?_ ?_ ?_ ?_ _ 0 (Nat.zero_le _) (by omega)
  · intro l hl
    rw [rootOpen_root]
    change blockAt d (dinodeAt sb d ROOTINO) (l / 64) ≠ 0
    rw [hp.blockAt_eq hd hp.root_allocated, (hp.made.tight ROOTINO hp.root_allocated).blocks,
      hp.root_size]
    unfold BSIZE
    omega
  · intro l hl
    rw [hentry]
    exact rootEntries_miss hgood (hnames ▸ h.names) hkn (h.name file hmem).2.1
      (h.name file hmem).2.2 hl
  · rw [hentk]
    exact ofNat16_ne_zero (by omega) (by omega : k + 2 < NINODES) hn
  · rw [hentk]
    exact namecmp_strncpy _
  rw [hentk, rootOpen_root]
  simp only
  rw [toNat_ofNat16 (by omega : k + 2 < NINODES) hn]
  refine (iget_rootOpen (by unfold ROOTINO; omega)).mono ?_
  rintro e s' ⟨he, hs'⟩
  exact ⟨e, _, he, rfl, hs'⟩

include hst in
theorem Stored.on_disk (hk : files[k]? = some file) :
    ∃ v, view d (dinodeAt sb d (k + 2)) = v ∧ v.type = T_FILE ∧ v.size = file.bytes.length ∧
      Starts v.data file.bytes ∧
      ∀ bn, bn * BSIZE < v.size → blockAt d (dinodeAt sb d (k + 2)) bn ≠ 0 := by
  obtain ⟨hlt, -⟩ := List.getElem?_eq_some_iff.mp hk
  obtain ⟨v, hv, hsize, hstarts⟩ := hst.bytes k file hk
  obtain ⟨w, hw, htype, -⟩ := hp.plain (k + 2) (by omega) (by rw [length_map]; omega)
  have hvw : v = w := Option.some.inj (hv.symm.trans hw)
  have hne : k + 2 ≠ ROOTINO := by
    unfold ROOTINO
    omega
  have hfile := hp.files_other hd hne
  rw [hv] at hfile
  obtain ⟨hal, hview⟩ := filesOf_eq_some.mp hv
  refine ⟨v, (files_eq_some.mp hfile).2, hvw ▸ htype, hsize, hstarts, fun bn hbn => ?_⟩
  rw [hp.blockAt_eq hd hal, (hp.made.tight _ hal).blocks]
  rw [← hview] at hbn
  exact hbn

include hst in
/-- Each file is found under its name and read back. -/
theorem Suitable.readback (h : Suitable files) (hk : files[k]? = some file) (p : Fin NPROC) :
    ∃ e s1 s2, namei sb p (slash :: filename file.argv) (boot d) = .ok (some e, s1) ∧
      ilock sb e s1 = .ok (⟨⟩, s2) ∧ (s2.inode e).din.type = T_FILE ∧
      (s2.inode e).din.size.toNat = file.bytes.length ∧
      ∀ off n, off ≤ file.bytes.length → off + n < 2 ^ 32 → readi sb e (fun _ _ => true) off n s2 =
          .ok ((((file.bytes.drop off).take n).length, (file.bytes.drop off).take n), s2) := by
  have hgood := h.good (mem_of_getElem? hk)
  obtain ⟨v, hroot, hdir, -⟩ := hp.files_root hd
  obtain ⟨-, hview⟩ := files_eq_some.mp hroot
  have htype : (dinodeAt sb d ROOTINO).type = T_DIR := by rw [← hdir, ← hview]; rfl
  obtain ⟨_, s1, hnamei, e, rfl, hdisk, he⟩ :=
    (namei_boot p (skipelem_name hgood.nonempty hgood.slash hgood.length) htype
      (h.dirlookup_root hp hd hk)).total
  obtain ⟨w, hw, hfile, hsize, hstarts, hblocks⟩ := hst.on_disk hp hd hk
  have hwtype : (dinodeAt sb d (k + 2)).type = T_FILE := by rw [← hfile, ← hw]; rfl
  have hwsize : (dinodeAt sb d (k + 2)).size.toNat = file.bytes.length := by
    rw [← hsize, ← hw]
    rfl
  have hlock : Wp (fun _ => False) (ilock sb e) s1 _ := ilock_reads he (by
    rw [hdisk, hwtype]
    decide)
  obtain ⟨_, s2, hilock, hs2⟩ := hlock.total
  rw [hdisk] at hs2
  have hdin : (s2.inode e).din = dinodeAt sb d (k + 2) := by rw [hs2, setIp_inode_self]
  have hdisk2 : s2.disk = d := by rw [hs2, setIp_disk, hdisk]
  refine ⟨e, s1, s2, hnamei, hilock, by rw [hdin, hwtype], by rw [hdin, hwsize], ?_⟩
  intro off n hoff hwrap
  have hread : Wp (fun _ => False) (readi sb e (fun _ _ => true) off n) s2 _ :=
    readi_bytes (by rwa [hdin, hwsize]) hwrap (by
      rw [hdin, hdisk2, hwsize]
      intro bn _ hbn
      exact hblocks bn (by omega))
  obtain ⟨r, s3, hreadi, rfl, hr⟩ := hread.total
  rw [hdin, hdisk2, hwsize, hw, hstarts.bytes hoff] at hr
  rw [hreadi, hr, length_take, length_drop]

end Mkfs

/-- `mkfs` and the kernel agree on the format. For files that fit on the disk `mkfs` succeeds, and
on its image the kernel finds each file under its name and reads back its bytes. -/
theorem mkfs_files_read_back (h : Suitable files) : ∃ d, mkfs files = .ok d ∧
    ∀ file ∈ files, ∀ p, ∃ e s1 s2,
      namei sb p (slash :: filename file.argv) (boot d) = .ok (some e, s1) ∧
      ilock sb e s1 = .ok (⟨⟩, s2) ∧ (s2.inode e).din.type = T_FILE ∧
      (s2.inode e).din.size.toNat = file.bytes.length ∧
      ∀ off n, off ≤ file.bytes.length → off + n < 2 ^ 32 →
        readi sb e (fun _ _ => true) off n s2 =
          .ok ((((file.bytes.drop off).take n).length, (file.bytes.drop off).take n), s2) := by
  obtain ⟨d, hmkfs⟩ := mkfs_ok h.inodes h.fits h.blocks
  obtain ⟨s, hp, hst, hd⟩ := mkfs_progress hmkfs h.inodes
  refine ⟨d, hmkfs, fun file hfile p => ?_⟩
  obtain ⟨k, hk⟩ := List.mem_iff_getElem?.mp hfile
  exact h.readback hp hst hd hk p

/-- "big", which needs the indirect block for its last byte. -/
def bigFile : Input := ⟨[98, 105, 103], some (List.replicate 12 (List.replicate BSIZE 1) ++ [[2]])⟩

theorem mkfs_files_read_back_demo : ∃ d, mkfs (bigFile :: demoFiles) = .ok d ∧ ∃ e s1 s2,
    namei sb p0 [47, 98, 105, 103] (boot d) = .ok (some e, s1) ∧ ilock sb e s1 = .ok (⟨⟩, s2) ∧
      readi sb e (fun _ _ => true) (12 * 1024) 10 s2 = .ok ((1, [2]), s2) := by
  have hsuit : Suitable (bigFile :: demoFiles) :=
    ⟨by decide, by decide, by decide, by decide +kernel, by decide, by decide +kernel⟩
  obtain ⟨d, hd, hall⟩ := mkfs_files_read_back hsuit
  obtain ⟨e, s1, s2, hnamei, hilock, -, -, hread⟩ := hall bigFile List.mem_cons_self p0
  have hlast : (bigFile.bytes.drop (12 * 1024)).take 10 = [2] := by decide +kernel
  have hbytes := hread (12 * 1024) 10 (by decide +kernel) (by decide)
  rw [hlast] at hbytes
  exact ⟨d, hd, e, s1, s2, hnamei, hilock, hbytes⟩

end Xv6.Mkfs
