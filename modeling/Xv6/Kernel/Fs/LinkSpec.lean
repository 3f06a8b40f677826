import Xv6.Kernel.Fs.FileSpec

namespace Xv6.Fs

open ByteCodec Hoare Function

variable {sb : Superblock} {al : Known} {s0 s s' : State} {t : Fin NINODE → Nat}
  {dp e : Fin NINODE} {i : Nat}

/-- `sys_link` has counted the link to inode `i` in entry `e`, but not made it; `s0` is the state
before. -/
structure Linking (sb : Superblock) (e : Fin NINODE) (i : Nat) (s0 s : State) : Prop where
  calm : Calm s0 s
  steps : AbsSteps sb.ninodes (s0.abs sb none) (s.abs sb (some i))
  inum : (s.inode e).inum = i

section

variable (h : Linking sb e i s0 s)
include h

theorem Linking.moved (hm : Moved sb t s s') (ht : 0 < t e) : Linking sb e i s0 s' where
  calm := h.calm.trans hm.calm
  steps := h.steps.trans (hm.steps _)
  inum := (hm.keep e ht).1.trans h.inum

theorem Linking.dirs (hd : Dirs sb.ninodes al.whole (s0.files sb)) :
    Dirs sb.ninodes al.whole (s.files sb) :=
  h.steps.dirs (a := s0.abs sb none) hd (Nat.zero_lt_of_lt sb.root_lt)

theorem Linking.did (hc : Calm s s')
    (hs : AbsSteps sb.ninodes (s.abs sb (some i)) (s'.abs sb none)) : Did sb s0 s' :=
  (h.calm.trans hc).did (h.steps.trans hs)

omit h in
theorem noteParent_spec :
    Wp (Allowed al) (noteParent dp) s fun _ s' =>
      Noted s s' (decide ((s.inode dp).din.nlink < 1)) false := by
  rw [noteParent, wp_bind, wp_getInode, wp_note]
  refine ⟨rfl, rfl, rfl, rfl, rfl, rfl, rfl, rfl, ?_, rfl⟩
  rw [Bool.or_false]

omit h in
theorem incNlink_spec (h : Inv sb s t) (hr : 0 < (s.inode e).ref) (hv : (s.inode e).valid)
    (ho : 0 < s.outstanding) :
    Wp (Allowed al) (incNlink e) s fun _ s1 => Wp (Allowed al) (iupdate sb e) s1 fun _ s' =>
      Inv sb s' t ∧
      s'.files sb = update (s.files sb) (s.inode e).inum
        (some { view s.disk (s.inode e).din with nlink := (s.inode e).din.nlink + 1 }) ∧
      DinOnly e s s' ∧
      ∃ s1, Noted s s1 false (decide ((s.inode e).din.nlink = 32767)) ∧ Frame s1 s' := by
  rw [incNlink, wp_bind, wp_getInode, wp_bind, wp_note]
  generalize hs1 : ({ s with hist := _ } : State) = s1
  have hn : Noted s s1 false (decide ((s.inode e).din.nlink = 32767)) := by
    rw [← hs1]
    refine ⟨rfl, rfl, rfl, rfl, rfl, rfl, rfl, ?_, rfl, rfl⟩
    rw [Bool.or_false]
  refine (setNlink_spec (hn.inv h) (by rwa [hn.inode]) (by rwa [hn.inode])
    (by rwa [hn.outstanding]) _).mono ?_
  intro _ s2 hs2
  refine hs2.mono ?_
  rintro _ s3 ⟨hinv3, hfiles3, hdin3, hframe3⟩
  rw [hn.inode, hn.disk, hn.files] at hfiles3
  obtain ⟨din, hdin3⟩ := hdin3
  rw [hn.inode] at hdin3
  exact ⟨hinv3, hfiles3, ⟨din, hdin3⟩, s1, hn, hframe3⟩

theorem linkBad_spec (hinv : Inv sb s (hold t e)) (ho : 0 < s0.outstanding) :
    Wp (Allowed al) (linkBad sb e) s fun _ s' => Called Did sb t 1 s0 s' := by
  rw [linkBad]
  refine (ilock_spec hinv).bind ?_
  intro _ s1 hl
  have h1 := h.moved hl.moved (hold_pos ..)
  have ho1 := h1.calm.pos ho
  refine (setNlink_spec hl.inv hl.ref hl.valid ho1 _).bind ?_
  intro _ s2 hs2
  refine hs2.bind ?_
  rintro _ s3 ⟨hinv3, hfiles3, _, hframe3⟩
  have hview := hl.inv.files_eq hl.ref hl.valid
  rw [h1.inum] at hfiles3 hview
  have hdid3 : Did sb s0 s3 := by
    refine h1.did hframe3.calm (.single ?_)
    have hstep := AbsStep.linkUndo (n := sb.ninodes) (a := s1.abs sb (some i)) rfl hview
    convert hstep using 1
    exact hframe3.abs_set hfiles3 none
  have hout3 : s3.outstanding = s0.outstanding := hframe3.outstanding.trans h1.calm.outstanding
  exact (release_spec hinv3 (by rw [hout3]; exact ho) _).mono fun _ _ h4 => h4.after hdid3 hout3

variable (hinv : Inv sb s (hold (hold t e) dp))
include hinv

/-- The parent directory is given back first. -/
theorem linkBadParent_spec (ho : 0 < s0.outstanding) :
    Wp (Allowed al) (do iunlockput sb dp; linkBad sb e : FsM Int) s fun _ s' =>
      Called Did sb t 1 s0 s' := by
  refine (iunlockput_spec hinv (h.calm.pos ho)).bind ?_
  intro _ s1 hput
  have h1 := h.moved hput.moved (hold_pos ..)
  exact linkBad_spec h1 hput.inv ho

omit h in
theorem linkDone_spec (ho : 0 < s.outstanding) :
    Wp (Allowed al) (do iunlockput sb dp; iput sb e; endOp; return 0 : FsM Int) s fun _ s' =>
      Called Did sb t 1 s s' := by
  refine (iunlockput_spec hinv ho).bind ?_
  intro _ s1 hput1
  refine (iput_spec hput1.inv (hput1.calm.pos ho)).bind ?_
  intro _ s2 hput2
  refine endOp_spec.bind ?_
  rintro _ s3 ⟨hc3, ho3⟩
  refine ⟨hc3.inv hput2.inv, (hput1.moved.did.trans hput2.moved.did).trans (hc3.did hput2.inv), ?_⟩
  rw [ho3, hput2.calm.outstanding, hput1.calm.outstanding]

/-- `sys_link` with the parent directory of the new name locked. -/
theorem linkEntry_spec {name : List UInt8} (hd : Dirs sb.ninodes al.whole (s.files sb))
    (hr : 0 < (s.inode dp).ref) (hv : (s.inode dp).valid) (ho : 0 < s0.outstanding)
    (hroom : al.room → Room s (hold (hold t e) dp) 1) :
    Wp (Allowed al) (do
        if ← dirlink sb dp name i then do
          noteParent dp
          iunlockput sb dp
          iput sb e
          endOp
          return 0
        else do
          iunlockput sb dp
          linkBad sb e : FsM Int) s fun _ s' => Called Did sb t 1 s0 s' := by
  have he : 0 < hold (hold t e) dp e := (hold_pos ..).trans_le (le_hold _ dp e)
  have hlt : i < sb.ninodes := by
    rw [← h.inum]
    exact (hinv.named e (hinv.ref_pos he)).2
  have hdp : 0 < hold (hold t e) dp dp := hold_pos ..
  refine (dirlink_spec hinv hr hv rfl (hinv.dirOk hd hr hv) (h.calm.pos ho) name i hroom).bind ?_
  rintro r s1 ⟨hinv1, hcalm1, hkeep1, htrue, hfalse⟩
  cases r with
  | false =>
    rw [if_neg Bool.false_ne_true]
    exact linkBadParent_spec (h.moved (hfalse rfl) he) hinv1 ho
  | true =>
    rw [if_pos rfl]
    obtain ⟨hdir, hlacks, ⟨k, hk, hfiles1⟩, hframe1⟩ := htrue rfl
    have hview1 : view s1.disk (s1.inode dp).din = (view s.disk (s.inode dp).din).setEntry k
        ⟨UInt16.ofNat i, strncpy name⟩ := by
      have hf := hinv1.files_eq (hinv1.ref_pos hdp) ((hkeep1 dp hdp).2 hv)
      rw [(hkeep1 dp hdp).1, hfiles1, update_self] at hf
      exact (Option.some.inj hf).symm
    have hlink1 : (s1.inode dp).din.nlink = (view s.disk (s.inode dp).din).nlink :=
      congrArg View.nlink hview1
    refine noteParent_spec.bind ?_
    intro _ s2 hn
    rw [hlink1] at hn
    have hdid2 : Did sb s0 s2 := by
      refine h.did (hcalm1.trans hn.calm) (.single ?_)
      have hstep := AbsStep.linkEnd (a := s.abs sb (some i)) rfl hlt (hinv.files_eq hr hv) hdir hk
        hlacks
      convert hstep using 1
      unfold State.abs Abs.set Abs.noteParent
      rw [hn.files, hfiles1, hn.freedDirs, hn.deadParent, hn.linkMax, Bool.or_false,
        hframe1.freedDirs, hframe1.deadParent, hframe1.linkMax]
    have hout2 : s2.outstanding = s0.outstanding := by
      rw [hn.outstanding, hcalm1.outstanding, h.calm.outstanding]
    exact (linkDone_spec (hn.inv hinv1) (by rw [hout2]; exact ho)).mono
      fun _ _ h3 => h3.after hdid2 hout2

end

theorem Linking.begin {s1 s2 : State}
    (hf : s.files sb (s.inode e).inum = some (view s.disk (s.inode e).din))
    (hty : (s.inode e).din.type ≠ T_DIR)
    (hfiles : s2.files sb = update (s.files sb) (s.inode e).inum
      (some { view s.disk (s.inode e).din with nlink := (s.inode e).din.nlink + 1 }))
    (hdin : DinOnly e s s2) (hn : Noted s s1 false (decide ((s.inode e).din.nlink = 32767)))
    (hframe : Frame s1 s2) : Linking sb e (s.inode e).inum s s2 := by
  have hcalm := hn.calm.trans hframe.calm
  refine ⟨hcalm, .single ?_, hdin.inum e⟩
  have hstep := AbsStep.linkBegin (n := sb.ninodes) (a := s.abs sb none) rfl hf hty
  convert hstep using 1
  unfold State.abs Abs.set Abs.noteLink
  rw [hfiles, hframe.freedDirs, hframe.deadParent, hframe.linkMax, hn.freedDirs, hn.deadParent,
    hn.linkMax, Bool.or_false]
  rfl

/-- `sys_link` from the lookup of the new name on. -/
theorem linkNew_spec {p : Fin NPROC} (h : Linking sb e i s0 s) (hinv : Inv sb s (hold t e))
    (hd : Dirs sb.ninodes al.whole (s0.files sb)) (ho : 0 < s0.outstanding)
    (hcwd : 0 < hold t e (s.proc p).cwd) (new : List UInt8)
    (hroom : al.room → Room s (hold t e) 2) :
    Wp (Allowed al) (do
        match ← nameiparent sb p new with
        | none => linkBad sb e
        | some (dp, name) => do
            ilock sb dp
            let dip ← getInode dp
            let ip ← getInode e
            if dip.dev ≠ ip.dev then do
              iunlockput sb dp
              linkBad sb e
            else if ← dirlink sb dp name ip.inum then do
              noteParent dp
              iunlockput sb dp
              iput sb e
              endOp
              return 0
            else do
              iunlockput sb dp
              linkBad sb e : FsM Int) s fun _ s' => Called Did sb t 1 s0 s' := by
  have he : 0 < hold t e e := hold_pos ..
  refine (namex_spec hinv (h.dirs hd) (h.calm.pos ho) hcwd new true hroom).bind ?_
  rintro r s1 ⟨hnamed, hm1, _⟩
  have h1 := h.moved hm1 he
  cases r with
  | none => exact linkBad_spec h1 hnamed ho
  | some x =>
    obtain ⟨dp, name⟩ := x
    simp only []
    refine (ilock_spec hnamed).bind ?_
    intro _ s2 hl
    have h2 := h1.moved hl.moved.of_hold he
    rw [wp_bind, wp_getInode, wp_bind, wp_getInode, h2.inum]
    by_cases hdev : (s2.inode dp).dev ≠ (s2.inode e).dev
    · rw [if_pos hdev]
      exact linkBadParent_spec h2 hl.inv ho
    · rw [if_neg hdev]
      have hfile : s2.file = s.file := hl.moved.calm.file.trans hm1.calm.file
      exact linkEntry_spec h2 hl.inv (h2.dirs hd) hl.ref hl.valid ho
        fun hr => ((hroom hr).congr hfile).hold dp

theorem sysLink_spec {p : Fin NPROC} (h : Inv sb s t) (hd : Dirs sb.ninodes al.whole (s.files sb))
    (hcwd : 0 < t (s.proc p).cwd) (old new : List UInt8) (hroom : al.room → Room s t 3) :
    Wp (Allowed al) (sysLink sb p old new) s fun _ s' => Called Did sb t 0 s s' := by
  unfold sysLink
  split
  · next old new _ _ =>
    refine op_spec h ?_
    intro s1 hc1 hinv1 ho1
    have hcwd1 : 0 < t (s1.proc p).cwd := by rwa [hc1.proc]
    have hroom1 : al.room → Room s1 t 3 := fun hr => (hroom hr).congr hc1.file
    refine lookup_spec hinv1 (hc1.did.dirs hd) ho1 hcwd1 old
      (fun hr => (hroom1 hr).mono (by decide)) ?_
    intro e s2 s3 hl3 hm3
    have ho3 := hm3.calm.pos ho1
    rw [wp_bind, wp_getInode]
    by_cases hty : (s3.inode e).din.type = T_DIR
    · rw [if_pos hty]
      exact release_spec hl3.inv ho3 _
    rw [if_neg hty]
    refine (incNlink_spec hl3.inv hl3.ref hl3.valid ho3).bind ?_
    intro _ s4 hs4
    refine hs4.bind ?_
    rintro _ s5 ⟨hinv5, hfiles5, hdin5, s5', hn5, hframe5⟩
    refine (iunlock_spec hinv5).bind ?_
    rintro _ s6 ⟨hs6, hinv6⟩
    have hlink6 : Linking sb e (s3.inode e).inum s3 s6 := by
      have hm6 : Moved sb (hold t e) s5 s6 := by
        rw [hs6]
        exact .setIp (Keep.setIp fun _ => ⟨rfl, fun hv => hv⟩)
      exact (Linking.begin (hl3.inv.files_eq hl3.ref hl3.valid) hty hfiles5 hdin5 hn5
        hframe5).moved hm6 (hold_pos ..)
    refine linkNew_spec hlink6 hinv6 (hm3.dirs (hc1.did.dirs hd)) ho3 ?_ new fun hr =>
      ((hroom1 hr).congr (hlink6.calm.file.trans hm3.calm.file)).hold e
    refine lt_of_lt_of_le ?_ (le_hold _ e _)
    rw [hlink6.calm.proc, hm3.calm.proc]
    exact hcwd1
  · exact .refl h

end Xv6.Fs
