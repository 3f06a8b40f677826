import Xv6.Kernel.Fs.LinkSpec

namespace Xv6.Fs

open ByteCodec Hoare Function Option List

/-- The 0 bytes after the end of a string do not change a comparison. -/
theorem strncmp_pad (n : Nat) (p q : List UInt8) (m : Nat) :
    strncmp n p (q ++ replicate m 0) = strncmp n p q := by
  induction n generalizing p q m with
  | zero => rfl
  | succ n ih =>
    cases q with
    | nil =>
      have hhead : (replicate m (0 : UInt8)).headD 0 = 0 := by cases m <;> rfl
      rw [nil_append, strncmp, strncmp, hhead, tail_replicate, headD_nil, tail_nil]
      have := ih p.tail [] (m - 1)
      rw [nil_append] at this
      rw [this]
    | cons c q =>
      rw [cons_append, strncmp, strncmp, headD_cons, tail_cons, headD_cons, tail_cons, ih]

theorem namecmp_dot (name : List UInt8) : namecmp name dot = strncmp DIRSIZ name [46] := by
  have h : ofFn dot = [46] ++ replicate 13 0 := by decide
  rw [namecmp, h, strncmp_pad]

theorem namecmp_dotdot (name : List UInt8) :
    namecmp name dotdot = strncmp DIRSIZ name [46, 46] := by
  have h : ofFn dotdot = [46, 46] ++ replicate 12 0 := by decide
  rw [namecmp, h, strncmp_pad]

variable {sb : Superblock} {al : Known} {s s' : State} {t : Fin NINODE → Nat} {dp e : Fin NINODE}
  {v : View}

section

variable (h : Inv sb s t) (hr : 0 < (s.inode dp).ref) (hv : (s.inode dp).valid)
  (hview : view s.disk (s.inode dp).din = v) (hok : v.DirOk sb.ninodes al.whole)
include h hr hv hview hok

theorem isdiremptyFrom_spec (fuel k : Nat) (hfuel : v.size < 16 * (k + fuel) ∨ v.size ≤ 16 * k) :
    Wp (Allowed al) (isdiremptyFrom sb dp fuel (16 * k)) s fun r s' =>
      s' = s ∧ (r = true → ∀ l, k ≤ l → l < v.nents → (v.entry l).inum = 0) := by
  have hsize := view_size hview
  have hdone : ¬ 16 * k < v.size → ∀ l, k ≤ l → l < v.nents → (v.entry l).inum = 0 := by
    intro hlt l hkl hl
    unfold View.nents at hl
    omega
  induction fuel generalizing k with
  | zero =>
    simp only [isdiremptyFrom, wp_bind, wp_getInode, wp_ite, wp_throw, wp_pure, hsize]
    rw [if_neg (by omega)]
    exact ⟨trivial, fun _ => hdone (by omega)⟩
  | succ fuel ih =>
    simp only [isdiremptyFrom, wp_bind, wp_getInode, wp_ite, wp_panic, wp_pure, hsize]
    split_ifs with hlt
    · refine (readEntry_spec h hr hv (by rwa [hsize])).mono ?_
      rintro ⟨r, bytes⟩ s1 ⟨hs1, hread, hshort⟩
      subst hs1
      rw [hview, hsize] at hread
      rw [hsize] at hshort
      by_cases hr16 : r = 16
      · obtain ⟨hle, hde⟩ := hread hr16
        rw [if_neg (not_not.mpr hr16)]
        simp only [hde]
        split_ifs with h0
        · exact ⟨trivial, fun hf => hf.elim⟩
        refine (ih (k + 1) (by omega) ?_).mono ?_
        · intro hk l hkl hl
          unfold View.nents at hl
          omega
        rintro r s2 ⟨hs2, hempty⟩
        refine ⟨hs2, fun hrt l hkl hl => ?_⟩
        by_cases hlk : l = k
        · rw [hlk]
          exact not_not.mp h0
        · exact hempty hrt l (by omega) hl
      · rw [if_pos hr16]
        intro hal
        have h16 := hok.2 hal
        have := hshort hr16
        omega
    · exact ⟨trivial, fun _ => hdone hlt⟩

theorem isdirempty_spec :
    Wp (Allowed al) (isdirempty sb dp) s fun r s' =>
      s' = s ∧ (r = true → ∀ l, 2 ≤ l → l < v.nents → (v.entry l).inum = 0) := by
  have hsize := view_size hview
  rw [isdirempty, wp_bind, wp_getInode, hsize]
  exact isdiremptyFrom_spec h hr hv hview hok _ 2 (by omega)

end

variable {d i : Nat}

theorem Reaped.set {a a' : Abs} (h : Reaped d a a') (hdi : d ≠ i) (w : Option View) :
    Reaped d (a.set i w) (a'.set i w) := by
  cases h with
  | inl h =>
    rw [h]
    exact .inl rfl
  | inr h =>
    obtain ⟨v, hd, h0, rfl⟩ := h
    refine .inr ⟨v, ?_, h0, ?_⟩
    · rw [Abs.set_files_of_ne a hdi]
      exact hd
    · unfold Abs.reap Abs.set
      rw [update_comm hdi]

theorem unlinkBad_spec (h : Inv sb s (hold t dp)) (ho : 0 < s.outstanding) :
    Wp (Allowed al) (unlinkBad sb dp) s fun _ s' => Called Did sb t 1 s s' :=
  release_spec h ho _

variable {s0 : State}

/-- `sys_unlink` has written over the entry and holds both inodes: `d` in `dp`, `i` in `e`. The
directory may be freed before the count of `e` goes down. -/
theorem unlinkEnd_spec {w : View} (hinv : Inv sb s (hold (hold t dp) e))
    (ho : 0 < s.outstanding) (hd : (s.inode dp).inum = d) (hi : (s.inode e).inum = i) (hdi : d ≠ i)
    (hv : (s.inode e).valid) (hview : view s.disk (s.inode e).din = w) (hcalm : Calm s0 s)
    (hstep : AbsStep sb.ninodes (s0.abs sb none)
      ((s.abs sb none).set i (some { w with nlink := w.nlink - 1 }))) :
    Wp (Allowed al) (do
        iunlockput sb dp
        setNlink e (· - 1)
        iupdate sb e
        iunlockput sb e
        endOp
        return 0 : FsM Int) s fun _ s' => Called Did sb t 1 s0 s' := by
  have hne : e ≠ dp := by
    intro hed
    apply hdi
    rw [← hd, ← hi, hed]
  rw [hold_comm] at hinv
  refine (iunlockput_spec hinv ho).bind ?_
  intro _ s1 hput
  have he1 : s1.inode e = s.inode e := hput.other e hne
  have hr1 : 0 < (s1.inode e).ref := hput.inv.ref_pos (hold_pos ..)
  have hv1 : (s1.inode e).valid = true := by rwa [he1]
  have hview1 : view s1.disk (s1.inode e).din = w := by
    have h0 := hinv.files_eq (e := e) (hinv.ref_pos ?_) hv
    · have h1 := hput.inv.files_eq hr1 hv1
      have h2 : s1.files sb i = s.files sb i := by
        have := hput.reaped none
        rw [hd] at this
        cases this with
        | inl h => exact congrFun (congrArg Abs.files h) i
        | inr h =>
          obtain ⟨u, -, -, h⟩ := h
          have := congrFun (congrArg Abs.files h) i
          exact this.trans (update_of_ne hdi.symm ..)
      rw [he1, hi, h2] at h1
      rw [hi, h1] at h0
      rw [he1, ← hview]
      exact some.inj h0
    · exact (hold_pos ..).trans_le (le_hold _ dp e)
  refine (setNlink_spec hput.inv hr1 hv1 (hput.calm.pos ho) _).bind ?_
  intro _ s2 hs2
  refine hs2.bind ?_
  rintro _ s3 ⟨hinv3, hfiles3, _, hframe3⟩
  have hlink1 : (s1.inode e).din.nlink = w.nlink := congrArg View.nlink hview1
  rw [hview1, hlink1, he1, hi] at hfiles3
  have hcalm3 : Calm s0 s3 := (hcalm.trans hput.calm).trans hframe3.calm
  have hdid3 : Did sb s0 s3 := by
    refine hcalm3.did ?_
    have hreap := hput.reaped none
    rw [hd] at hreap
    rw [hframe3.abs_set hfiles3]
    exact .trans (.single hstep) (hreap.set hdi _).steps
  refine (release_spec hinv3 (by rw [hframe3.outstanding, hput.calm.outstanding]; exact ho) _).mono ?_
  exact fun _ _ h4 => h4.after hdid3 hcalm3.outstanding

/-- The entry that `sys_unlink` found in the directory `dv` for the file `w`. -/
structure Removable (dv w : View) (k i : Nat) : Prop where
  dir : dv.type = T_DIR
  lt : k < dv.nents
  used : (dv.entry k).inum ≠ 0
  inum : (dv.entry k).inum.toNat = i
  named : (dv.entry k).name ≠ dot ∧ (dv.entry k).name ≠ dotdot
  linked : ¬ w.nlink < 1
  empty : w.type = T_DIR → ∀ l, 2 ≤ l → l < w.nents → (w.entry l).inum = 0

theorem unlinkEntry_spec {k : Nat} {dv w : View} (h : Inv sb s (hold (hold t dp) e))
    (ho : 0 < s.outstanding) (hd : (s.inode dp).inum = d) (hi : (s.inode e).inum = i) (hdi : d ≠ i)
    (hdv : (s.inode dp).valid) (hv : (s.inode e).valid)
    (hdview : view s.disk (s.inode dp).din = dv) (hview : view s.disk (s.inode e).din = w)
    (hrem : Removable dv w k i) :
    Wp (Allowed al) (unlinkEntry sb dp e (16 * k)) s fun _ s' => Called Did sb t 1 s s' := by
  have hne : e ≠ dp := by
    intro hed
    apply hdi
    rw [← hd, ← hi, hed]
  have hr : 0 < (s.inode e).ref := h.ref_pos (hold_pos ..)
  have hdr : 0 < (s.inode dp).ref := by
    apply h.ref_pos
    exact (hold_pos ..).trans_le (le_hold _ e dp)
  have hdf := h.files_eq hdr hdv
  have hf := h.files_eq hr hv
  rw [hd, hdview] at hdf
  rw [hi, hview] at hf
  rw [unlinkEntry]
  refine (writeEntry_spec h hdr hdv ho .zero k).bind ?_
  rintro r s1 ⟨hinv1, hfiles1, hdin1, hframe1⟩
  by_cases hr16 : r ≠ 16
  · rw [if_pos hr16]
    trivial
  rw [if_neg hr16]
  have hfiles1 : s1.files sb = update (s.files sb) d (some (dv.setEntry k .zero)) := by
    cases hfiles1 with
    | inl hfiles =>
      rw [← hd, ← hdview]
      exact hfiles.2
    | inr hfiles => exact absurd hfiles.1 hr16
  have hdin1 : DinOnly dp s s1 := hdin1
  have he1 : s1.inode e = s.inode e := hdin1.of_ne hne
  have hd1 : (s1.inode dp).inum = d := (hdin1.inum dp).trans hd
  have hdv1 : (s1.inode dp).valid = true := (hdin1.valid dp).trans hdv
  have hdr1 : 0 < (s1.inode dp).ref := by
    rw [hdin1.ref dp]
    exact hdr
  have ho1 := hframe1.pos ho
  have hview1 : view s1.disk (s1.inode e).din = w := by
    have h1 := hinv1.files_eq (e := e) (by rwa [he1]) (by rwa [he1])
    rw [he1, hi, hfiles1, update_of_ne hdi.symm, hf] at h1
    rw [he1]
    exact (some.inj h1).symm
  have htype : (s1.inode e).din.type = w.type := congrArg View.type hview1
  rw [wp_bind, wp_getInode, htype]
  dsimp only
  by_cases hty : w.type = T_DIR
  · rw [if_pos hty]
    refine (setNlink_spec hinv1 hdr1 hdv1 ho1 _).bind ?_
    intro _ s2 hs2
    refine hs2.bind ?_
    rintro _ s3 ⟨hinv3, hfiles3, hdin3, hframe3⟩
    have hdview1 : view s1.disk (s1.inode dp).din = dv.setEntry k .zero := by
      have h1 := hinv1.files_eq hdr1 hdv1
      rw [hd1, hfiles1, update_self] at h1
      exact (some.inj h1).symm
    have hlink1 : (s1.inode dp).din.nlink = dv.nlink := congrArg View.nlink hdview1
    rw [hd1, hdview1, hlink1, hfiles1, update_idem] at hfiles3
    have he3 : s3.inode e = s1.inode e := hdin3.of_ne hne
    have hview3 : view s3.disk (s3.inode e).din = w := by
      have h1 := hinv3.files_eq (e := e) (by rwa [he3, he1]) (by rwa [he3, he1])
      rw [he3, he1, hi, hfiles3, update_of_ne hdi.symm, hf] at h1
      rw [he3, he1]
      exact (some.inj h1).symm
    have hframe := hframe1.trans hframe3
    refine unlinkEnd_spec hinv3 (hframe.pos ho)
      ((hdin3.inum dp).trans hd1) (by rw [he3, he1, hi]) hdi (by rw [he3, he1, hv]) hview3
      hframe.calm ?_
    rw [hframe.abs_set hfiles3]
    exact .unlinkDir hdf hrem.dir hrem.lt hrem.used hrem.inum hrem.named hf hdi hty hrem.linked
      (hrem.empty hty)
  · rw [if_neg hty]
    refine unlinkEnd_spec hinv1 ho1 hd1 (by rw [he1, hi]) hdi (by rw [he1, hv]) hview1
      hframe1.calm ?_
    rw [hframe1.abs_set hfiles1]
    exact .unlinkFile hdf hrem.dir hrem.lt hrem.used hrem.inum hrem.named hf hdi hty hrem.linked

theorem Locked.ne_of_free {inum : Nat} {ip : Inode} (hl : Locked sb t s0 dp s)
    (hgot : Got sb t s inum e s' ip) (hfree : (s'.inode e).locked = false) : e ≠ dp := by
  intro he
  subst he
  rw [hgot.eq, setIp_inode_self] at hfree
  cases hgot.old with
  | inl hold =>
    have hlocked : (s.inode e).locked = true := by
      rw [hl.eq, setIp_inode_self]
      rfl
    rw [hold.2] at hfree
    exact Bool.noConfusion (hfree.symm.trans hlocked)
  | inr hold =>
    have := hl.ref
    omega

/-- `sys_unlink` with the parent directory locked. -/
theorem unlinkName_spec (hl : Locked sb (hold t dp) s0 dp s)
    (hd : Dirs sb.ninodes al.whole (s.files sb)) (ho : 0 < s.outstanding) (name : List UInt8)
    (hroom : al.room → Room s (hold t dp) 1) (hcount : al.counted → Counted (s.files sb)) :
    Wp (Allowed al) (if strncmp DIRSIZ name [46] = 0 ∨ strncmp DIRSIZ name [46, 46] = 0 then
          unlinkBad sb dp
        else do
          match ← dirlookup sb dp name with
          | none => unlinkBad sb dp
          | some (e, off) => do
              ilock sb e
              let ip ← getInode e
              if ip.din.nlink < 1 then panic .unlinkNlink
              else if ip.din.type = T_DIR then do
                if ← isdirempty sb e then unlinkEntry sb dp e off
                else do
                  iunlockput sb e
                  unlinkBad sb dp
              else unlinkEntry sb dp e off : FsM Int) s fun _ s' => Called Did sb t 1 s s' := by
  by_cases hdots : strncmp DIRSIZ name [46] = 0 ∨ strncmp DIRSIZ name [46, 46] = 0
  · rw [if_pos hdots]
    exact unlinkBad_spec hl.inv ho
  rw [if_neg hdots]
  refine (dirlookup_spec hl.inv hl.ref hl.valid rfl (hl.inv.dirOk hd hl.ref hl.valid) name
    fun hr _ => hroom hr).bind ?_
  rintro r s1 ⟨hdir, hlook⟩
  cases r with
  | none =>
    obtain ⟨rfl, -⟩ := hlook
    exact unlinkBad_spec hl.inv ho
  | some x =>
    obtain ⟨e, off⟩ := x
    obtain ⟨k, ip, rfl, hk, hused, hname, hgot⟩ := hlook
    have hm1 := hgot.moved
    simp only []
    refine (ilock_spec hgot.inv).bind ?_
    intro _ s2 hl2
    have hne : e ≠ dp := hl.ne_of_free hgot hl2.free
    have hdp2 : s2.inode dp = s.inode dp := by
      rw [hl2.eq, setIp_inode_of_ne hne.symm, hgot.eq, setIp_inode_of_ne hne.symm]
    have hdisk2 : s2.disk = s.disk := by
      rw [hl2.eq, hgot.eq]
      rfl
    have hnum2 : (s2.inode e).inum = ((view s.disk (s.inode dp).din).entry k).inum.toNat := by
      rw [hl2.eq, setIp_inode_self, ← hgot.inum]
      change (s1.inode e).inum = ip.inum
      rw [hgot.eq, setIp_inode_self]
    have hdi : (s2.inode dp).inum ≠ (s2.inode e).inum := by
      intro heq
      exact hne (hl2.inv.uniq e dp hl2.ref (by rw [hdp2]; exact hl.ref) heq.symm)
    have hm2 : Moved sb t s s2 := (hm1.of_hold).trans hl2.moved.of_hold.of_hold
    have ho2 := hm2.calm.pos ho
    have hdview2 : view s2.disk (s2.inode dp).din = view s.disk (s.inode dp).din := by
      rw [hdisk2, hdp2]
    have hnamed : ((view s.disk (s.inode dp).din).entry k).name ≠ dot ∧
        ((view s.disk (s.inode dp).din).entry k).name ≠ dotdot := by
      refine ⟨fun hn => hdots (.inl ?_), fun hn => hdots (.inr ?_)⟩
      · rw [← namecmp_dot, ← hn]
        exact hname
      · rw [← namecmp_dotdot, ← hn]
        exact hname
    have hdone : ∀ hlink : ¬ (s2.inode e).din.nlink < 1,
        ((s2.inode e).din.type = T_DIR → ∀ l, 2 ≤ l → l < (view s2.disk (s2.inode e).din).nents →
            ((view s2.disk (s2.inode e).din).entry l).inum = 0) →
        Wp (Allowed al) (unlinkEntry sb dp e (16 * k)) s2 fun _ s' => Called Did sb t 1 s s' := by
      intro hlink hempty
      refine (unlinkEntry_spec hl2.inv ho2 rfl rfl hdi (by rw [hdp2]; exact hl.valid) hl2.valid
        hdview2 rfl ⟨hdir, hk, hused, hnum2.symm, hnamed, hlink, hempty⟩).mono ?_
      exact fun _ _ h3 => h3.moved hm2
    rw [wp_bind, wp_getInode]
    by_cases hlink : (s2.inode e).din.nlink < 1
    · rw [if_pos hlink]
      intro hc
      have hfiles2 : s2.files sb = s.files sb := by
        unfold State.files
        rw [hdisk2]
      have hfile := hl2.inv.files_eq hl2.ref hl2.valid
      rw [hfiles2, hnum2] at hfile
      refine hcount hc _ _ k _ (hl.inv.files_eq hl.ref hl.valid) hdir hk ?_ hfile hlink
      intro hnone
      exact hnone.elim hused fun hn => hn.elim hnamed.1 hnamed.2
    rw [if_neg hlink]
    by_cases hty : (s2.inode e).din.type = T_DIR
    · rw [if_pos hty]
      refine (isdirempty_spec hl2.inv hl2.ref hl2.valid rfl
        (hl2.inv.dirOk (hm2.dirs hd) hl2.ref hl2.valid hty)).bind ?_
      rintro r s3 ⟨hs3, hempty⟩
      subst hs3
      cases r with
      | true =>
        rw [if_pos rfl]
        exact hdone hlink fun _ => hempty rfl
      | false =>
        rw [if_neg Bool.false_ne_true]
        refine (iunlockput_spec hl2.inv ho2).bind ?_
        intro _ s4 hput
        have hm4 := hm2.trans hput.moved.of_hold
        refine (unlinkBad_spec hput.inv (hm4.calm.pos ho)).mono ?_
        exact fun _ _ h5 => h5.moved hm4
    · rw [if_neg hty]
      exact hdone hlink fun hdir => absurd hdir hty

/-- Every entry stays counted while inodes without links are freed. -/
def StaysCounted (sb : Superblock) (s : State) : Prop :=
  ∀ s', AbsSteps sb.ninodes (s.abs sb none) (s'.abs sb none) → SameNotes s s' →
    Counted (s'.files sb)

theorem sysUnlink_spec {p : Fin NPROC} (h : Inv sb s t) (hd : Dirs sb.ninodes al.whole (s.files sb))
    (hcwd : 0 < t (s.proc p).cwd) (path : List UInt8) (hroom : al.room → Room s t 2)
    (hcount : al.counted → StaysCounted sb s) :
    Wp (Allowed al) (sysUnlink sb p path) s fun _ s' => Called Did sb t 0 s s' := by
  unfold sysUnlink
  split
  · exact .refl h
  · next path _ =>
    refine op_spec h ?_
    intro s1 hc1 hinv1 ho1
    have hd1 := hc1.did.dirs hd
    refine (namex_spec hinv1 hd1 ho1 (by rwa [hc1.proc]) path true
      fun hr => (hroom hr).congr hc1.file).bind ?_
    rintro r s2 ⟨hnamed, hm2, hwalked⟩
    cases r with
    | none => exact (end_spec hnamed (-1)).mono fun _ _ h3 => h3.moved hm2
    | some x =>
      obtain ⟨dp, name⟩ := x
      simp only []
      refine (ilock_spec hnamed).bind ?_
      intro _ s3 hl3
      have hm3 := hm2.trans hl3.moved.of_hold
      have hroom3 : al.room → Room s3 (hold t dp) 1 :=
        fun hr => ((hroom hr).congr (hm3.calm.file.trans hc1.file)).hold dp
      have hnotes1 : SameNotes s s1 := ⟨hc1.deadParent, hc1.linkMax⟩
      have hcount3 : al.counted → Counted (s3.files sb) := fun hc =>
        hcount hc s3 (hc1.did.trans hm3.did).steps ((hnotes1.trans hwalked.notes).trans hl3.walked.notes)
      refine (unlinkName_spec hl3 (hm3.dirs hd1) (hm3.calm.pos ho1) name hroom3 hcount3).mono ?_
      exact fun _ _ h4 => h4.moved hm3

end Xv6.Fs
