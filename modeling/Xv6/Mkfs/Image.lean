import Xv6.Mkfs.Append

namespace Xv6.Mkfs

open ByteCodec Hoare Fs Function

def inodes (s : State) : Nat → Dinode := dinodeAt sb (image s)

def filesOf (s : State) : Nat → Option View := files sb (image s) (inodes s)

/-- The image between two calls of `main`: no file has a block past its end. -/
structure Made (s : State) : Prop where
  built : Built s (inodes s)
  tight : ∀ i, Allocated sb (inodes s) i → Tight (image s) (inodes s i) (inodes s i).size.toNat

variable {s s' : State} {ino : Nat → Dinode} {i : Nat} {room : Prop}

theorem inodes_eq (hi : i < NINODES) :
    inodes s i = dinode.get (s.disk (sb.iblock i)) (i % IPB) := by
  have hlt := sb.iblock_lt hi
  unfold inodes dinodeAt
  rw [image_of_ne (by omega)]

theorem iblock_lt_nsect (hlt : sb.iblock i < sb.bmapstart) (h : s.nsect = FSSIZE) :
    sb.iblock i < s.nsect := by
  have hmeta : sb.bmapstart < FSSIZE := by decide
  omega

theorem rinode_spec (h : Built s ino) (hi : i < NINODES) {Q : Dinode → State → Prop}
    (hQ : Q (inodes s i) s) : Wp (Unless room) (rinode i) s Q := by
  rw [rinode, wp_bind]
  apply wp_rsect fun _ => iblock_lt_nsect (sb.iblock_lt hi) h.nsect
  intro _
  rw [wp_pure, ← inodes_eq hi]
  exact hQ

/-- The inode in memory is written to the image, whose other inodes are those in memory. -/
theorem winode_spec (h : Built s ino) (hlt : sb.iblock i < sb.bmapstart)
    (hino : ∀ j, j < NINODES → j ≠ i → inodes s j = ino j) :
    Wp (Unless room) (winode i (ino i)) s fun _ s' => Built s' (inodes s') ∧
      filesOf s' = files sb (image s) ino ∧ (∀ j, j < NINODES → inodes s' j = ino j) ∧
      (∀ b, sb.bmapstart ≤ b → image s' b = image s b) ∧ s'.freeinode = s.freeinode ∧
      s'.freeblock = s.freeblock := by
  rw [winode, wp_bind]
  apply wp_rsect fun _ => iblock_lt_nsect hlt h.nsect
  intro hsec
  rw [wp_wsect]
  generalize hs' : ({ s with
    disk := update s.disk (sb.iblock i) (dinode.put (s.disk (sb.iblock i)) (i % IPB) (ino i)),
    nsect := max s.nsect (sb.iblock i + 1) } : State) = s'
  have hfb : s'.freeblock = s.freeblock := by rw [← hs']
  have hput : image s' = putDinode sb (image s) i (ino i) := by
    unfold putDinode
    rw [image_of_ne (by omega), ← hs']
    exact update_comm (by omega) ..
  have hhigh : ∀ b, sb.bmapstart ≤ b → image s' b = image s b := by
    intro b hb
    rw [hput]
    exact update_of_ne (by omega) ..
  have hino' : ∀ j, j < NINODES → inodes s' j = ino j := by
    intro j hj
    by_cases hji : j = i
    · rw [hji, inodes, hput, dinodeAt_putDinode_self]
    · rw [inodes, hput, dinodeAt_putDinode_of_ne _ _ _ hji]
      exact hino j hj hji
  obtain ⟨himg, hfiles⟩ := h.img.congr_inodes hhigh
  obtain ⟨himg', hfiles'⟩ := himg.congr_ino hino'
  refine ⟨⟨himg', ?_, ?_, ?_, ?_⟩, hfiles'.trans hfiles, hino', hhigh, ?_, hfb⟩
  · rw [← hs']
    exact (Nat.max_eq_left hsec).trans h.nsect
  · rw [hfb]
    exact h.ge
  · rw [hfb]
    exact h.le
  · intro b hb
    have hge := h.ge
    have hmeta := bmapstart_lt_nmeta
    rw [hfb] at hb
    rw [← hs']
    exact (update_of_ne (by omega) ..).trans (h.fresh b hb)
  · rw [← hs']

theorem Built.blockAt_eq (h : Built s ino) (hi : Allocated sb ino i)
    (hhigh : ∀ b, sb.bmapstart ≤ b → image s' b = image s b) (bn : Nat) :
    blockAt (image s') (ino i) bn = blockAt (image s) (ino i) bn := by
  rw [blockAt_eq_slot, blockAt_eq_slot]
  apply slot_congr rfl
  intro hind
  have := sb.bmapstart_lt
  have := (h.img.ind_mem hi hind).1
  exact hhigh _ (by omega)

/-- What `iappend` does once its loop is done. -/
theorem iappend_of_loop (h : Made s) (hi : Allocated sb (inodes s) i) (p : List UInt8) {c : Nat}
    {P : (Nat → Block) → Prop}
    (hloop : Wp (Unless room) (iappendLoop p.length (inodes s i) (inodes s i).size.toNat p) s
      fun r s' => (∃ data, P data ∧ Wrote s s' (inodes s) i r.1 data) ∧
        Tight (image s') r.1 r.2 ∧ r.2 = (inodes s i).size.toNat + p.length ∧
        r.2 ≤ MAXFILE * BSIZE ∧ s'.freeblock + blocksFor (inodes s i).size.toNat = c) :
    Wp (Unless room) (iappend i p) s fun _ s' => Made s' ∧ s'.freeinode = s.freeinode ∧
      s'.freeblock + blocksFor (inodes s i).size.toNat = c ∧
      ∃ data, P data ∧ filesOf s' = update (filesOf s) i (some { view (image s) (inodes s i) with
          size := (inodes s i).size.toNat + p.length, data := data }) := by
  rw [iappend, wp_bind]
  apply rinode_spec h.built hi.1
  refine hloop.bind ?_
  rintro ⟨din, off⟩ s1 ⟨⟨data, hP, hw⟩, ht, hoff, hmax, hc⟩
  simp only at hw ht hoff hmax ⊢
  have hself : update (inodes s) i din i = din := update_self ..
  have hsize : (UInt32.ofNat off).toNat = off :=
    UInt32.toNat_ofNat_of_lt' (hmax.trans_lt (by decide))
  have hi1 := hw.allocated hi
  generalize hip : ({ din with size := UInt32.ofNat off } : Dinode) = ip
  have hipsize : ip.size.toNat = off := by rw [← hip, hsize]
  have hipaddrs : ip.addrs = din.addrs := by rw [← hip]
  have hiptype : ip.type = (update (inodes s) i din i).type := by rw [hself, ← hip]
  have hipblock : ∀ d bn, blockAt d ip bn = blockAt d din bn := by
    intro d bn
    rw [blockAt_eq_slot, blockAt_eq_slot]
    exact slot_congr hipaddrs (fun _ => rfl) _
  obtain ⟨himg, hfiles⟩ := hw.built.img.setAttrs hi1 hiptype (by rw [hself, hipaddrs])
    (by rw [hipsize]; exact hmax)
    (by rw [hself, hipsize]; exact fun bn hbn => (ht.blocks bn).mpr hbn)
  rw [update_idem] at himg hfiles
  have hb1 : Built s1 (update (inodes s) i ip) :=
    ⟨himg, hw.built.nsect, hw.built.ge, hw.built.le, hw.built.fresh⟩
  have hself1 : update (inodes s) i ip i = ip := update_self ..
  have hkeep : ∀ j, j < NINODES → inodes s1 j = inodes s j := by
    intro j hj
    rw [inodes_eq hj, inodes_eq hj, hw.inodes _ (sb.iblock_lt hj)]
  have hother : ∀ j, j < NINODES → j ≠ i → inodes s1 j = update (inodes s) i ip j := by
    intro j hj hji
    rw [hkeep j hj, update_of_ne hji]
  rw [← hself1]
  refine (winode_spec hb1 (sb.iblock_lt hi.1) hother).mono ?_
  rintro _ s' ⟨hb', hfiles', hino', hhigh, hfi, hfb⟩
  refine ⟨⟨hb', ?_⟩, hfi.trans hw.freeinode, hfb ▸ hc, data, hP, ?_⟩
  · intro j hj
    have hj1 : Allocated sb (update (inodes s) i ip) j := by
      have := hj.2
      rw [hino' j hj.1] at this
      exact ⟨hj.1, this⟩
    rw [hino' j hj.1]
    refine Tight.congr ?_ (hb1.blockAt_eq hj1 hhigh)
    by_cases hji : j = i
    · rw [hji, hself1, hipsize]
      exact ⟨fun bn => (hipblock _ bn) ▸ ht.blocks bn, by
        unfold Dinode.ind
        rw [hipaddrs]
        exact ht.ind⟩
    have hj0 : Allocated sb (inodes s) j := by
      have := hj1.2
      rw [update_of_ne hji] at this
      exact ⟨hj.1, this⟩
    rw [update_of_ne hji]
    exact (h.tight j hj0).congr (hw.others j hji hj0)
  · have hview : view (image s1) ip = { view (image s1) din with size := off } := by
      ext1
      · rw [← hip]; rfl
      · rw [← hip]; rfl
      · rw [← hip]; rfl
      · rw [← hip]; rfl
      · exact hipsize
      · funext bn
        simp only [view, hipblock]
    rw [hfiles', hfiles, hw.files, update_idem, hview, hw.view_eq hi, hoff]
    rfl

variable {v : View}

theorem filesOf_eq_some :
    filesOf s i = some v ↔ Allocated sb (inodes s) i ∧ view (image s) (inodes s i) = v :=
  files_eq_some

/-- Bytes are appended to a file that holds exactly the bytes `l`. -/
theorem iappend_spec (h : Made s) (hv : filesOf s i = some v) {l : List UInt8}
    (hl : Starts v.data l) (hlen : l.length = v.size) (p : List UInt8)
    (hroom : room → s.freeblock + blocksFor (v.size + p.length) ≤ FSSIZE + blocksFor v.size ∧
      v.size + p.length ≤ MAXFILE * BSIZE) :
    Wp (Unless room) (iappend i p) s fun _ s' => Made s' ∧ s'.freeinode = s.freeinode ∧
      s'.freeblock + blocksFor v.size = s.freeblock + blocksFor (v.size + p.length) ∧
      ∃ data, Starts data (l ++ p) ∧ filesOf s' = update (filesOf s) i
        (some { v with size := v.size + p.length, data := data }) := by
  obtain ⟨hi, rfl⟩ := filesOf_eq_some.mp hv
  exact iappend_of_loop h hi p (P := fun data => Starts data (l ++ p))
    (iappendLoop_spec h.built hi (h.built.img.bound i hi) (h.tight i hi) hl hlen (le_refl _) hroom)

theorem iappend_dirent (h : Made s) (hv : filesOf s i = some v) {k : Nat}
    (hk : v.size = 16 * k) (inum : Nat) (name : List UInt8)
    (hroom : room → s.freeblock + blocksFor (16 * k + 16) ≤ FSSIZE + blocksFor (16 * k) ∧
      16 * k < MAXFILE * BSIZE) :
    Wp (Unless room) (iappend i (direntBytes inum name)) s fun _ s' =>
      Made s' ∧ s'.freeinode = s.freeinode ∧
      s'.freeblock + blocksFor (16 * k) = s.freeblock + blocksFor (16 * k + 16) ∧
      filesOf s' = update (filesOf s) i
        (some (v.setEntry k ⟨UInt16.ofNat inum, strncpy name⟩)) := by
  obtain ⟨hi, rfl⟩ := filesOf_eq_some.mp hv
  have hsize : (inodes s i).size.toNat = 16 * k := hk
  have hlen : (direntBytes inum name).length = 16 := List.length_ofFn
  have ht := h.tight i hi
  rw [hsize] at ht
  have hloop := iappendLoop_dirent h.built hi ht inum name hroom
  refine (iappend_of_loop h hi (direntBytes inum name) (c := s.freeblock + blocksFor (16 * k + 16))
    (P := fun data => data = ((view (image s) (inodes s i)).setEntry k
      ⟨UInt16.ofNat inum, strncpy name⟩).data) ?_).mono ?_
  · rw [hsize, hlen]
    refine hloop.mono ?_
    rintro r s' ⟨hw, hrest⟩
    exact ⟨⟨_, rfl, hw⟩, hrest⟩
  rintro _ s' ⟨hmade, hfi, hfb, data, hdata, hfiles⟩
  rw [hsize] at hfb
  refine ⟨hmade, hfi, hfb, ?_⟩
  rw [hfiles, hdata, hsize, hlen]
  unfold View.setEntry
  rw [hk, max_eq_right (Nat.le_add_right _ _)]

theorem ialloc_spec (h : Made s) (hlt : s.freeinode < NINODES)
    (hfree : filesOf s s.freeinode = none) {type : Int16} (htype : type ≠ 0) :
    Wp (Unless room) (ialloc type) s fun r s' => r = s.freeinode ∧ Made s' ∧
      s'.freeinode = s.freeinode + 1 ∧ s'.freeblock = s.freeblock ∧
      filesOf s' = update (filesOf s) s.freeinode (some (.fresh type 0 0)) := by
  have hun : ¬ Allocated sb (inodes s) s.freeinode := by
    intro hal
    rw [filesOf, files_of_allocated hal] at hfree
    cases hfree
  generalize hip : (⟨type, 0, 0, 1, 0, fun _ => 0⟩ : Dinode) = ip
  have hempty : ∀ d k, slot d ip k = 0 := by
    intro d k
    rw [← hip]
    unfold slot Dinode.ind
    simp
  have hplace : ∀ k, place sb (image s) (inodes s) (s.freeinode, k) = none :=
    fun k => if_neg fun hk => hun hk.1
  obtain ⟨himg, hfiles⟩ := h.built.img.replace hplace (hempty _) (by rw [← hip])
  have hview : view (image s) ip = .fresh type 0 0 := by
    unfold view View.fresh
    simp only [blockAt_eq_slot, hempty, if_true]
    rw [← hip]
    rfl
  have hcond : s.freeinode < sb.ninodes ∧ ip.type ≠ 0 := ⟨hlt, by rw [← hip]; exact htype⟩
  rw [if_pos hcond, hview] at hfiles
  have hself : update (inodes s) s.freeinode ip s.freeinode = ip := update_self ..
  have hb1 : Built { s with freeinode := s.freeinode + 1 } (update (inodes s) s.freeinode ip) :=
    ⟨himg, h.built.nsect, h.built.ge, h.built.le, h.built.fresh⟩
  rw [ialloc, wp_bind, wp_get, wp_bind, wp_set, wp_bind, hip, ← hself]
  refine (winode_spec hb1 (sb.iblock_lt hlt) ?_).mono ?_
  · intro j _ hji
    rw [update_of_ne hji]
    rfl
  rintro _ s' ⟨hb', hfiles', hino', hhigh, hfi, hfb⟩
  rw [wp_pure]
  refine ⟨rfl, ⟨hb', ?_⟩, hfi, hfb, hfiles'.trans hfiles⟩
  intro j hj
  have hj1 : Allocated sb (update (inodes s) s.freeinode ip) j := by
    have := hj.2
    rw [hino' j hj.1] at this
    exact ⟨hj.1, this⟩
  rw [hino' j hj.1]
  refine Tight.congr ?_ (hb1.blockAt_eq hj1 hhigh)
  by_cases hji : j = s.freeinode
  · rw [hji, hself]
    refine ⟨fun bn => ?_, ?_⟩
    · rw [blockAt_eq_slot, hempty, ← hip]
      simp
    · rw [← hip]
      simp [Dinode.ind]
  have hj0 : Allocated sb (inodes s) j := by
    have := hj1.2
    rw [update_of_ne hji] at this
    exact ⟨hj.1, this⟩
  rw [update_of_ne hji]
  exact h.tight j hj0

end Xv6.Mkfs
