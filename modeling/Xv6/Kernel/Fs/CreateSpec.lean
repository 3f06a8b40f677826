import Xv6.Kernel.Fs.DirSpec

namespace Xv6.Fs

open ByteCodec Hoare Function Option

variable {sb : Superblock} {al : Known} {t : Fin NINODE → Nat} {dp e : Fin NINODE}

/-- `create` has allocated inode `i` in entry `e` for the directory `d` in entry `dp`; `s1` is the
state before, `v` the directory and `w` the new file so far. -/
structure Creating (sb : Superblock) (t : Fin NINODE → Nat) (s1 s : State) (dp e : Fin NINODE)
    (d i : Nat) (v w : View) : Prop where
  inv : Inv sb s (hold (hold t dp) e)
  frame : Frame s1 s
  files : s.files sb = update (s1.files sb) i (some w)
  parent : s1.files sb d = some v
  new : s1.files sb i = none
  pos : 0 < i
  lt : i < sb.ninodes
  dpNum : (s.inode dp).inum = d
  dpValid : (s.inode dp).valid = true
  eNum : (s.inode e).inum = i
  keep : Keep t s1 s

namespace Creating

variable {s1 s s' : State} {d i : Nat} {v w : View}

section

variable (h : Creating sb t s1 s dp e d i v w)
include h

theorem ne : d ≠ i := by
  intro hdi
  have := h.parent
  rw [hdi, h.new] at this
  cases this

theorem eRef : 0 < (s.inode e).ref := h.inv.ref_pos (hold_pos ..)

theorem dpRef : 0 < (s.inode dp).ref := by
  apply h.inv.ref_pos
  exact (hold_pos ..).trans_le (le_hold _ e dp)

theorem dpView : view s.disk (s.inode dp).din = v := by
  have hf := h.inv.files_eq h.dpRef h.dpValid
  rw [h.dpNum, h.files, update_of_ne h.ne, h.parent] at hf
  exact (some.inj hf).symm

theorem eView (hv : (s.inode e).valid) : view s.disk (s.inode e).din = w := by
  have hf := h.inv.files_eq h.eRef hv
  rw [h.eNum, h.files, update_self] at hf
  exact (some.inj hf).symm

section

variable (hinv : Inv sb s' (hold (hold t dp) e)) (hframe : Frame s s')
include hinv hframe

theorem next {e' : Fin NINODE} {w' : View}
    (hfiles : s'.files sb = update (s1.files sb) i (some w')) (hdin : DinOnly e' s s') :
    Creating sb t s1 s' dp e d i v w' :=
  { h with
    inv := hinv
    frame := h.frame.trans hframe
    files := hfiles
    dpNum := (hdin.inum dp).trans h.dpNum
    dpValid := (hdin.valid dp).trans h.dpValid
    eNum := (hdin.inum e).trans h.eNum
    keep := h.keep.trans hdin.keep }

theorem step {w' : View} (hfiles : s'.files sb = update (s.files sb) i (some w'))
    (hdin : DinOnly e s s') : Creating sb t s1 s' dp e d i v w' :=
  h.next hinv hframe (by rw [hfiles, h.files, update_idem]) hdin

theorem stay {e' : Fin NINODE} (hfiles : s'.files sb = s.files sb) (hdin : DinOnly e' s s') :
    Creating sb t s1 s' dp e d i v w :=
  h.next hinv hframe (hfiles.trans h.files) hdin

end

theorem entry_ne : e ≠ dp := by
  intro he
  apply h.ne
  rw [← h.dpNum, ← h.eNum, he]

theorem outstanding (ho : 0 < s1.outstanding) : 0 < s.outstanding := h.frame.pos ho

end

end Creating

/-- A directory that names no file. -/
def View.Dotted (n : Nat) (w : View) : Prop :=
  w.size % 16 = 0 ∧ ∀ k, k < w.nents → (w.entry k).inum.toNat < n ∧ (w.entry k).Nameless

variable {w : View}

theorem View.Dotted.dirOk {n : Nat} {whole : Prop} (h : w.Dotted n) : w.DirOk n whole :=
  ⟨fun k hk => (h.2 k hk).1, fun _ => h.1⟩

theorem fresh_dotted (n : Nat) (major minor : Int16) : (View.fresh T_DIR major minor).Dotted n := by
  refine ⟨rfl, fun k hk => ?_⟩
  rw [fresh_nents] at hk
  exact absurd hk (Nat.not_lt_zero k)

theorem View.Dotted.setEntry {n : Nat} (h : w.Dotted n) {k : Nat} (hk : w.Vacant k)
    {de : Dirent} (hlt : de.inum.toNat < n) (hde : de.Nameless) : (w.setEntry k de).Dotted n := by
  constructor
  · have := h.1
    rw [View.setEntry_size]
    omega
  intro l hl
  by_cases hlk : l = k
  · rw [hlk, View.entry_setEntry_self]
    exact ⟨hlt, hde⟩
  · rw [View.entry_setEntry_of_ne hlk]
    apply h.2
    have hle := hk.2.1
    have : (w.setEntry k de).nents ≤ max w.nents (k + 1) := View.nents_setEntry_le hle
    omega

variable {s1 s : State} {d i : Nat} {v : View}

theorem dot_ne_dotdot : namecmp [46, 46] dot ≠ 0 := by decide

theorem createDots_spec {major minor : Int16}
    (h : Creating sb t s1 s dp e d i v (.fresh T_DIR major minor))
    (hv : (s.inode e).valid) (ho : 0 < s1.outstanding) (hd : d < sb.ninodes) :
    Wp (Allowed al) (createDots sb e i d) s fun r s' =>
      (s'.inode e).valid = true ∧
      ∃ w, Creating sb t s1 s' dp e d i v w ∧ w.type = T_DIR ∧ w.Dotted sb.ninodes ∧
        (r = true → ∃ u l, u = (View.fresh T_DIR major minor).setEntry 0 ⟨UInt16.ofNat i, dot⟩ ∧
          u.Vacant l ∧ w = u.setEntry l ⟨UInt16.ofNat d, dotdot⟩) := by
  have hfd := fresh_dotted sb.ninodes major minor
  have hlacks : (View.fresh T_DIR major minor).Lacks [46] := by
    intro k hk
    rw [fresh_nents] at hk
    exact absurd hk (Nat.not_lt_zero k)
  rw [createDots]
  refine (dirlinkNew_spec h.inv h.eRef hv (h.eView hv) (fun _ => hfd.dirOk) (h.outstanding ho)
    hlacks i).bind ?_
  rintro r s2 ⟨hinv, hframe, hdin, htrue, hfalse⟩
  have hv2 : (s2.inode e).valid = true := (hdin.valid e).trans hv
  cases r with
  | false =>
    rw [if_neg Bool.false_ne_true, wp_pure]
    exact ⟨hv2, _, h.stay hinv hframe (hfalse rfl) hdin, rfl, hfd, fun hr => Bool.noConfusion hr⟩
  | true =>
    rw [if_pos rfl]
    obtain ⟨l, hl, hfiles⟩ := htrue rfl
    rw [h.eNum] at hfiles
    have hl0 : l = 0 := by
      have := hl.2.1
      rw [fresh_nents] at this
      omega
    subst hl0
    have h2 := h.step hinv hframe hfiles hdin
    have hdot : Dirent.Nameless ⟨UInt16.ofNat i, strncpy [46]⟩ := .inr (.inl rfl)
    have hdot2 := hfd.setEntry hl (ofNat_lt h.lt) hdot
    have hlacks2 : ((View.fresh T_DIR major minor).setEntry 0
        ⟨UInt16.ofNat i, strncpy [46]⟩).Lacks [46, 46] := by
      intro k hk _
      have hk0 : k = 0 := by
        have := hk.trans_le (View.nents_setEntry_le hl.2.1)
        rw [fresh_nents] at this
        omega
      rw [hk0, View.entry_setEntry_self]
      exact dot_ne_dotdot
    refine (dirlinkNew_spec h2.inv h2.eRef hv2 (h2.eView hv2) (fun _ => hdot2.dirOk)
      (h2.outstanding ho) hlacks2 d).mono ?_
    rintro r s3 ⟨hinv3, hframe3, hdin3, htrue3, hfalse3⟩
    have hv3 : (s3.inode e).valid = true := (hdin3.valid e).trans hv2
    cases r with
    | false =>
      exact ⟨hv3, _, h2.stay hinv3 hframe3 (hfalse3 rfl) hdin3, rfl, hdot2,
        fun hr => Bool.noConfusion hr⟩
    | true =>
      obtain ⟨l, hl, hfiles3⟩ := htrue3 rfl
      rw [h2.eNum] at hfiles3
      exact ⟨hv3, _, h2.step hinv3 hframe3 hfiles3 hdin3, rfl,
        hdot2.setEntry hl (ofNat_lt hd) (.inr (.inr rfl)), fun _ => ⟨_, l, rfl, hl, rfl⟩⟩

/-- What `create` returns. -/
def Created (sb : Superblock) (t : Fin NINODE → Nat) (type : Int16) (s : State) :
    Option (Fin NINODE) → State → Prop
  | none, s' => Inv sb s' t ∧ Moved sb t s s'
  | some e, s' => Inv sb s' (hold t e) ∧ Moved sb t s s' ∧ (s'.inode e).valid = true ∧
      (type ≠ T_DIR → (s'.inode e).din.type ≠ T_DIR)

theorem createFail_spec (h : Creating sb t s1 s dp e d i v w) (hv : (s.inode e).valid)
    (ho : 0 < s1.outstanding) (hdots : w.type = T_DIR → w.Dotted sb.ninodes) (type : Int16) :
    Wp (Allowed al) (createFail sb e dp) s (Created sb t type s1) := by
  rw [createFail]
  refine (setNlink_spec h.inv h.eRef hv (h.outstanding ho) _).bind ?_
  intro _ s2 hs2
  refine hs2.bind ?_
  rintro _ s3 ⟨hinv3, hfiles3, hdin3, hframe3⟩
  rw [h.eNum, h.eView hv] at hfiles3
  have h3 := h.step hinv3 hframe3 hfiles3 hdin3
  have hm3 : Moved sb t s1 s3 := by
    refine ⟨h3.frame.calm, h3.keep, fun x => ?_⟩
    rw [h3.frame.abs_set h3.files]
    exact .single (.orphan h.pos h.lt h.new rfl hdots)
  refine (iunlockput_spec h3.inv (h3.outstanding ho)).bind ?_
  intro _ s4 hput4
  have hm4 := hm3.trans hput4.moved.of_hold
  refine (iunlockput_spec hput4.inv (hm4.calm.pos ho)).bind ?_
  intro _ s5 hput5
  exact ⟨hput5.inv, hm4.trans hput5.moved⟩

/-- The new file as it stands when its entry is written. -/
def Ready (sb : Superblock) (d i : Nat) (type major minor : Int16) (w : View) : Prop :=
  w.type = type ∧
  (type = T_DIR → w.Dotted sb.ninodes ∧
    ∃ u l, u = (View.fresh T_DIR major minor).setEntry 0 ⟨UInt16.ofNat i, dot⟩ ∧
      u.Vacant l ∧ w = u.setEntry l ⟨UInt16.ofNat d, dotdot⟩) ∧
  (type ≠ T_DIR → w = .fresh type major minor)

/-- The history notes an entry added to a directory (`dead`: one without links) and a link made
(`maxed`: to a file that has 32767). -/
structure Noted (s s' : State) (dead maxed : Bool) : Prop where
  disk : s'.disk = s.disk
  inode : s'.inode = s.inode
  file : s'.file = s.file
  proc : s'.proc = s.proc
  outstanding : s'.outstanding = s.outstanding
  readAllocs : s'.hist.readAllocs = s.hist.readAllocs
  freedDirs : s'.hist.freedDirs = s.hist.freedDirs
  deadParent : s'.hist.deadParent = (s.hist.deadParent || dead)
  linkMax : s'.hist.linkMax = (s.hist.linkMax || maxed)
  commits : s'.hist.commits = s.hist.commits

section

variable {s s' : State} {dead maxed : Bool} (h : Noted s s' dead maxed)
include h

theorem Noted.inv (hinv : Inv sb s t) : Inv sb s' t := hinv.congr h.disk h.inode h.file

theorem Noted.files : s'.files sb = s.files sb := by
  unfold State.files
  rw [h.disk]

theorem Noted.calm : Calm s s' := ⟨h.file, h.proc, h.outstanding, h.readAllocs, h.commits⟩

theorem Noted.keep : Keep t s s' := by
  intro e _
  rw [h.inode]
  exact ⟨rfl, fun hv => hv⟩

end

variable {type : Int16}

theorem createEnd_spec {s4 : State} (hinv : Inv sb s4 (hold (hold t dp) e))
    (hm : Moved sb t s1 s4) (hne : e ≠ dp) (hv : (s4.inode e).valid)
    (htype : (s4.inode e).din.type = type) (ho : 0 < s1.outstanding) :
    Wp (Allowed al) (iunlockput sb dp) s4 fun _ s' => Created sb t type s1 (some e) s' := by
  rw [hold_comm] at hinv
  refine (iunlockput_spec hinv (hm.calm.pos ho)).mono ?_
  intro _ s5 hput
  refine ⟨hput.inv, hm.trans hput.moved.of_hold, ?_, ?_⟩
  · rw [hput.other e hne]
    exact hv
  · rw [hput.other e hne, htype]
    exact fun h => h

theorem createEntry_spec {major minor : Int16} {name : List UInt8}
    (h : Creating sb t s1 s dp e d i v w) (hv : (s.inode e).valid) (ho : 0 < s1.outstanding)
    (hd : Dirs sb.ninodes al.whole (s1.files sb)) (hdn : d < sb.ninodes) (hdir : v.type = T_DIR)
    (hlacks : v.Lacks name) (hready : Ready sb d i type major minor w) :
    Wp (Allowed al) (createEntry sb e dp name type) s (Created sb t type s1) := by
  simp only [createEntry, wp_bind, wp_getInode, h.eNum]
  refine (dirlinkNew_spec h.inv h.dpRef h.dpValid h.dpView (fun _ => hd d v h.parent hdir)
    (h.outstanding ho) hlacks i).mono ?_
  rintro r s2 ⟨hinv2, hframe2, hdin2, htrue2, hfalse2⟩
  have hv2 : (s2.inode e).valid = true := (hdin2.valid e).trans hv
  cases r with
  | false =>
    rw [if_neg Bool.false_ne_true]
    have h2 := h.stay hinv2 hframe2 (hfalse2 rfl) hdin2
    exact createFail_spec h2 hv2 ho (fun hwdir => (hready.2.1 (hready.1 ▸ hwdir)).1) type
  | true =>
    rw [if_pos rfl]
    obtain ⟨k, hk, hfiles2⟩ := htrue2 rfl
    rw [h.dpNum, h.files] at hfiles2
    have hnum2 : (s2.inode dp).inum = d := (hdin2.inum dp).trans h.dpNum
    have hdpv2 : (s2.inode dp).valid = true := (hdin2.valid dp).trans h.dpValid
    have hdpr2 : 0 < (s2.inode dp).ref := h.dpRef.trans_eq (hdin2.ref dp).symm
    have hview2 : view s2.disk (s2.inode dp).din = v.setEntry k ⟨UInt16.ofNat i, strncpy name⟩ := by
      have hf := hinv2.files_eq hdpr2 hdpv2
      rw [hnum2, hfiles2, update_self] at hf
      exact (some.inj hf).symm
    have hlink2 : (s2.inode dp).din.nlink = v.nlink := congrArg View.nlink hview2
    have hdin : (s2.inode e).din = (s.inode e).din := by
      rw [hdin2.of_ne h.entry_ne]
    have htype : (s.inode e).din.type = type := (congrArg View.type (h.eView hv)).trans hready.1
    have hf12 := h.frame.trans hframe2
    have hkeep2 := h.keep.trans hdin2.keep
    simp only [noteParent, wp_bind, wp_getInode, wp_note, hlink2]
    by_cases hty : type = T_DIR
    · rw [if_pos hty]
      obtain ⟨-, u, l, hu, hl, hw⟩ := hready.2.1 hty
      simp only [incNlink, wp_bind, wp_getInode, wp_note, wp_pure, hlink2]
      generalize hs3 : ({ s2 with hist := _ } : State) = s3
      have hn : Noted s2 s3 (decide (v.nlink < 1)) (decide (v.nlink = 32767)) := by
        rw [← hs3]
        exact ⟨rfl, rfl, rfl, rfl, rfl, rfl, rfl, rfl, rfl, rfl⟩
      have hout3 : 0 < s3.outstanding := by
        rw [hn.outstanding, hf12.outstanding]
        exact ho
      refine (setNlink_spec (hn.inv hinv2) (by rwa [hn.inode]) (by rwa [hn.inode]) hout3 _).mono ?_
      intro _ s4 hs4
      refine hs4.mono ?_
      rintro _ s5 ⟨hinv5, hfiles5, hdin5, hframe5⟩
      rw [hn.inode, hn.disk, hnum2, hview2, hn.files, hfiles2, update_idem, hlink2] at hfiles5
      refine createEnd_spec hinv5 ?_ h.entry_ne ?_ ?_ ho
      · refine ⟨(hf12.calm.trans hn.calm).trans hframe5.calm,
          (hkeep2.trans hn.keep).trans hdin5.keep, fun x => .single ?_⟩
        have hstep := AbsStep.mkdir (a := s1.abs sb x) h.parent hdir hdn h.pos h.lt h.new hu hl hk
          hlacks
        rw [← hw] at hstep
        convert hstep using 1
        unfold State.abs Abs.set Abs.noteLink Abs.noteParent
        rw [hfiles5, hframe5.freedDirs, hframe5.deadParent, hframe5.linkMax, hn.freedDirs,
          hn.deadParent, hn.linkMax, hf12.freedDirs, hf12.deadParent, hf12.linkMax]
      · rw [hdin5.valid e, hn.inode]
        exact hv2
      · rw [hdin5.of_ne h.entry_ne, hn.inode, hdin]
        exact htype
    · rw [if_neg hty]
      simp only [wp_bind, wp_pure]
      have hw := hready.2.2 hty
      generalize hs3 : ({ s2 with hist := _ } : State) = s3
      have hn : Noted s2 s3 (decide (v.nlink < 1)) false := by
        rw [← hs3]
        refine ⟨rfl, rfl, rfl, rfl, rfl, rfl, rfl, rfl, ?_, rfl⟩
        rw [Bool.or_false]
      refine createEnd_spec (hn.inv hinv2) ?_ h.entry_ne ?_ ?_ ho
      · refine ⟨hf12.calm.trans hn.calm, hkeep2.trans hn.keep, fun x => .single ?_⟩
        have hstep := AbsStep.create (a := s1.abs sb x) major minor h.parent hdir h.pos h.lt h.new hty
          hk hlacks
        convert hstep using 1
        unfold State.abs Abs.set Abs.noteParent
        rw [hn.files, hfiles2, hn.freedDirs, hn.deadParent, hn.linkMax, Bool.or_false,
          hf12.freedDirs, hf12.deadParent, hf12.linkMax, hw]
      · rw [hn.inode]
        exact hv2
      · rw [hn.inode, hdin]
        exact htype

theorem Creating.lock {s' : State} (h : Creating sb t s1 s dp e d i v w)
    (hl : Locked sb (hold (hold t dp) e) s e s') : Creating sb t s1 s' dp e d i v w := by
  have hdp := hl.moved.keep dp ((hold_pos ..).trans_le (le_hold _ e dp))
  exact { h with
    inv := hl.inv
    frame := h.frame.trans (hl.eq ▸ .setIp ..)
    files := by rw [hl.eq, setIp_files, h.files]
    dpNum := hdp.1.trans h.dpNum
    dpValid := hdp.2 h.dpValid
    eNum := (hl.moved.keep e (hold_pos ..)).1.trans h.eNum
    keep := h.keep.trans hl.moved.of_hold.of_hold.keep }

theorem createInode_spec {name : List UInt8}
    (h : Creating sb t s1 s dp e d i v ⟨type, 0, 0, 0, 0, fun _ _ => 0⟩) (ho : 0 < s1.outstanding)
    (hd : Dirs sb.ninodes al.whole (s1.files sb)) (hdn : d < sb.ninodes) (hdir : v.type = T_DIR)
    (hlacks : v.Lacks name) (major minor : Int16) :
    Wp (Allowed al) (createInode sb e dp name type major minor) s (Created sb t type s1) := by
  rw [createInode]
  refine (ilock_spec h.inv).bind ?_
  intro _ s2 hl
  have h2 := h.lock hl
  rw [wp_bind]
  refine (updateDin_spec h2.inv h2.eRef hl.valid (h2.outstanding ho)
    (f := fun din => { din with major := major, minor := minor, nlink := 1 })
    (fun _ => rfl) (fun _ => rfl) (fun _ => rfl)).mono ?_
  intro _ s3 hs3
  refine hs3.bind ?_
  rintro _ s4 ⟨hinv4, hfiles4, hinode4, hframe4⟩
  have hfresh : view s2.disk { (s2.inode e).din with major := major, minor := minor, nlink := 1 } =
      .fresh type major minor :=
    calc _ = { view s2.disk (s2.inode e).din with major := major, minor := minor, nlink := 1 } := rfl
      _ = _ := by rw [h2.eView hl.valid]; rfl
  have hdin4 : DinOnly e s2 s4 := ⟨_, hinode4⟩
  rw [h2.eNum, hfresh] at hfiles4
  have h4 := h2.step hinv4 hframe4 hfiles4 hdin4
  have hv4 : (s4.inode e).valid = true := (hdin4.valid e).trans hl.valid
  simp only [wp_ite, wp_bind, wp_getInode, h4.eNum, h4.dpNum]
  split_ifs with hty
  · subst hty
    refine (createDots_spec h4 hv4 ho hdn).mono ?_
    rintro r s5 ⟨hv5, w, h5, hwty, hwdot, hshape⟩
    cases r with
    | false =>
      rw [if_neg Bool.false_ne_true]
      exact createFail_spec h5 hv5 ho (fun _ => hwdot) _
    | true =>
      rw [if_pos rfl]
      exact createEntry_spec h5 hv5 ho hd hdn hdir hlacks
        ⟨hwty, fun _ => ⟨hwdot, hshape rfl⟩, fun hne => absurd rfl hne⟩
  · exact createEntry_spec h4 hv4 ho hd hdn hdir hlacks
      ⟨rfl, fun heq => absurd heq hty, fun _ => rfl⟩

theorem Created.trans {s0 : State} {r : Option (Fin NINODE)} {s' : State}
    (hm : Moved sb t s0 s) (h : Created sb t type s r s') : Created sb t type s0 r s' := by
  cases r with
  | none => exact ⟨h.1, hm.trans h.2⟩
  | some e => exact ⟨h.1, hm.trans h.2.1, h.2.2⟩

theorem create_spec {p : Fin NPROC} (h : Inv sb s t) (hd : Dirs sb.ninodes al.whole (s.files sb))
    (ho : 0 < s.outstanding) (hcwd : 0 < t (s.proc p).cwd) (path : List UInt8)
    (htype : type ≠ 0) (major minor : Int16) (hroom : al.room → Room s t 2) :
    Wp (Allowed al) (create sb p path type major minor) s (Created sb t type s) := by
  rw [create]
  refine (namex_spec h hd ho hcwd path true hroom).bind ?_
  rintro r s1 ⟨hnamed, hm1, _⟩
  cases r with
  | none => exact ⟨hnamed, hm1⟩
  | some x =>
    obtain ⟨dp, name⟩ := x
    simp only [wp_bind]
    refine (ilock_spec hnamed).mono ?_
    intro _ s2 hl
    have hm2 := hm1.trans hl.moved.of_hold
    have hd2 := hm2.dirs hd
    have ho2 := hm2.calm.pos ho
    have hroom2 : al.room → Room s2 (hold t dp) 1 :=
      fun hr => ((hroom hr).congr hm2.calm.file).hold dp
    refine (dirlookup_spec hl.inv hl.ref hl.valid rfl (hl.inv.dirOk hd2 hl.ref hl.valid)
      name fun hr _ => hroom2 hr).mono ?_
    rintro r s3 ⟨hdir, hlook⟩
    cases r with
    | some y =>
      obtain ⟨l, ip, -, -, -, -, hgot⟩ := hlook
      have hm3 := hm2.trans hgot.moved.of_hold
      have hinv3 := hgot.inv
      rw [hold_comm] at hinv3
      have ho3 := hm3.calm.pos ho
      simp only [wp_bind]
      refine (iunlockput_spec hinv3 ho3).mono ?_
      intro _ s4 hput4
      have hm4 := hm3.trans hput4.moved.of_hold
      refine (ilock_spec hput4.inv).mono ?_
      intro _ s5 hl5
      have hm5 := hm4.trans hl5.moved.of_hold
      simp only [wp_getInode, wp_ite, wp_pure]
      split_ifs with hc
      · refine ⟨hl5.inv, hm5, hl5.valid, fun _ => ?_⟩
        cases hc.2 with
        | inl hf | inr hf =>
          rw [hf]
          decide
      · simp only [wp_bind, wp_pure]
        refine (iunlockput_spec hl5.inv (hm5.calm.pos ho)).mono ?_
        intro _ s6 hput6
        exact ⟨hput6.inv, hm5.trans hput6.moved⟩
    | none =>
      obtain ⟨rfl, hlacks, -⟩ := hlook
      obtain ⟨hdev, hnum⟩ := hl.inv.named dp hl.ref
      simp only [wp_bind, wp_getInode, hdev]
      refine (ialloc_spec hl.inv ho2 htype hroom2).mono ?_
      intro r s4 hr
      cases r with
      | none =>
        subst hr
        simp only [wp_bind, wp_pure]
        refine (iunlockput_spec hl.inv ho2).mono ?_
        intro _ s5 hput
        exact ⟨hput.inv, hm2.trans hput.moved⟩
      | some e =>
        obtain ⟨hinv4, hframe4, hkeep4, i, heNum, hpos, hlt, hnew, hfiles4⟩ := hr
        have hparent := hl.inv.files_eq hl.ref hl.valid
        have hdpKeep := hkeep4 dp (hold_pos ..)
        have hc : Creating sb t s3 s4 dp e (s3.inode dp).inum i _ _ :=
          ⟨hinv4, hframe4, hfiles4, hparent, hnew, hpos, hlt, hdpKeep.1, hdpKeep.2 hl.valid, heNum,
            hkeep4.of_hold⟩
        refine (createInode_spec hc ho2 hd2 hnum hdir hlacks major minor).mono ?_
        intro r s' hcr
        exact hcr.trans hm2

end Xv6.Fs
