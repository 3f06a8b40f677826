import Xv6.Kernel.Fs.UnlinkSpec

namespace Xv6.Fs

open ByteCodec Hoare Transition Function Nat

/-- References a process holds to entry `e` of the inode table: its current directory. -/
def Proc.refTo (x : Proc) (e : Fin NINODE) : Nat := if x.used = true ∧ x.cwd = e then 1 else 0

def procRefs (s : State) (e : Fin NINODE) : Nat := ∑ p, (s.proc p).refTo e

/-- The references of all processes but `p`. -/
def othersRefs (s : State) (p : Fin NPROC) (e : Fin NINODE) : Nat :=
  procRefs s e - (s.proc p).refTo e

/-- The file system between two system calls. -/
structure SysInv (sb : Superblock) (al : Known) (s : State) : Prop where
  inv : Inv sb s (procRefs s)
  dirs : Dirs sb.ninodes al.whole (s.files sb)
  outstanding : s.outstanding = 0
  readAllocs : s.hist.readAllocs = 0

variable {sb : Superblock} {al : Known} {s s' : State} {t : Fin NINODE → Nat} {e : Fin NINODE}
  {p q : Fin NPROC}

theorem procRefs_congr (h : SameProcs s s') : procRefs s' = procRefs s := by
  funext e
  unfold procRefs Proc.refTo
  apply Finset.sum_congr rfl
  intro p _
  rw [(h p).1, (h p).2]

theorem othersRefs_congr (h : SameProcs s s') : othersRefs s' p = othersRefs s p := by
  funext e
  unfold othersRefs Proc.refTo
  rw [procRefs_congr h, (h p).1, (h p).2]

theorem refTo_le_procRefs (s : State) (p : Fin NPROC) (e : Fin NINODE) :
    (s.proc p).refTo e ≤ procRefs s e :=
  Counting.le_sum (fun p => (s.proc p).refTo e) p

theorem cwd_pos (hp : (s.proc p).used) : 0 < procRefs s (s.proc p).cwd := by
  have h1 : (s.proc p).refTo (s.proc p).cwd = 1 := if_pos ⟨hp, rfl⟩
  have h2 := refTo_le_procRefs s p (s.proc p).cwd
  omega

variable {x : Proc}

theorem add_refTo (h : x.used) (t : Fin NINODE → Nat) (e : Fin NINODE) :
    t e + x.refTo e = hold t x.cwd e := by
  unfold Proc.refTo
  by_cases he : e = x.cwd
  · rw [if_pos ⟨h, he.symm⟩, he, hold_self]
  · rw [if_neg fun hh => he hh.2.symm, hold_of_ne t he, Nat.add_zero]

theorem refTo_unused (h : x.used = false) (e : Fin NINODE) : x.refTo e = 0 := by
  apply if_neg
  rw [h]
  simp

theorem procRefs_eq_hold (hp : (s.proc p).used) :
    procRefs s = hold (othersRefs s p) (s.proc p).cwd := by
  funext e
  have := refTo_le_procRefs s p e
  rw [← add_refTo hp]
  unfold othersRefs
  omega

theorem procRefs_update (h : s'.proc = update s.proc p x) (e : Fin NINODE) :
    procRefs s' e = othersRefs s p e + x.refTo e := by
  have h1 := Counting.sum_update (fun y : Proc => y.refTo e) s.proc p x
  have h2 := refTo_le_procRefs s p e
  unfold othersRefs
  unfold procRefs at *
  rw [h]
  omega

theorem SysInv.next (h : SysInv sb al s) (hinv : Inv sb s' (procRefs s'))
    (ho : s'.outstanding = s.outstanding) (hr : s'.hist.readAllocs = s.hist.readAllocs)
    (hs : AbsSteps sb.ninodes (s.abs sb none) (s'.abs sb none)) : SysInv sb al s' :=
  ⟨hinv, hs.dirs (a := s.abs sb none) h.dirs (zero_lt_of_lt sb.root_lt),
    ho.trans h.outstanding, hr.trans h.readAllocs⟩

/-- What a system call does: `s` is the state before. -/
structure Sound (sb : Superblock) (al : Known) (s s' : State) : Prop where
  inv : SysInv sb al s'
  steps : AbsSteps sb.ninodes (s.abs sb none) (s'.abs sb none)
  commits : ∀ d ∈ s'.hist.commits, d ∈ s.hist.commits ∨ Passed sb s s' d

theorem SysInv.sound (h : SysInv sb al s) (hs : Called Did sb (procRefs s) 0 s s') :
    Sound sb al s s' := by
  obtain ⟨hinv, hdid, ho⟩ := hs
  refine ⟨h.next ?_ ho hdid.readAllocs hdid.steps, hdid.steps, hdid.commits⟩
  rw [procRefs_congr hdid.procs]
  exact hinv

theorem SysInv.sound_proc (h : SysInv sb al s) (hs : Called Did sb t 0 s s')
    (hrefs : ∀ e, othersRefs s p e + x.refTo e = t e) :
    Sound sb al s { s' with proc := update s'.proc p x } := by
  obtain ⟨hinv, hdid, ho⟩ := hs
  refine ⟨h.next ?_ ho hdid.readAllocs hdid.steps, hdid.steps, hdid.commits⟩
  have heq : procRefs { s' with proc := update s'.proc p x } = t := by
    funext e
    rw [procRefs_update rfl, othersRefs_congr hdid.procs]
    exact hrefs e
  rw [heq]
  exact hinv.congr rfl rfl rfl

section

variable (h : Inv sb s t) (hd : Dirs sb.ninodes al.whole (s.files sb)) (hcwd : 0 < t (s.proc p).cwd)
  (path : List UInt8)
include h hd hcwd

theorem sysOpen_spec (omode : Nat) (hroom : al.room → Room s t 2) :
    Wp (Allowed al) (sysOpen sb p path omode) s fun _ s' => Called Did sb t 0 s s' := by
  unfold sysOpen
  split
  · exact .refl h
  · next path _ =>
    refine op_spec h ?_
    intro s1 hc1 hinv1 ho1
    have hd1 := hc1.did.dirs hd
    have hcwd1 : 0 < t (s1.proc p).cwd := by rwa [hc1.proc]
    have hroom1 : al.room → Room s1 t 2 := fun hr => (hroom hr).congr hc1.file
    rw [wp_ite]
    by_cases hcreate : omode &&& O_CREATE ≠ 0
    · rw [if_pos hcreate]
      refine (create_spec hinv1 hd1 ho1 hcwd1 path (by decide) 0 0 hroom1).bind ?_
      intro r s2 hr
      cases r with
      | none => exact (end_spec hr.1 (-1)).mono fun _ _ hs => hs.moved hr.2
      | some e =>
        obtain ⟨hinv2, hm2, hv2, hty2⟩ := hr
        exact (openInode_spec hinv2 (hm2.calm.pos ho1) hv2 fun _ => hty2 (by decide)).mono
          fun _ _ hs => hs.toDid.moved hm2
    · rw [if_neg hcreate]
      refine lookup_spec hinv1 hd1 ho1 hcwd1 path hroom1 ?_
      intro e s2 s3 hl hm
      have ho3 := hm.calm.pos ho1
      rw [wp_bind, wp_getInode]
      by_cases hdir : (s3.inode e).din.type = T_DIR ∧ omode ≠ O_RDONLY
      · rw [if_pos hdir]
        exact release_spec hl.inv ho3 _
      · rw [if_neg hdir]
        exact (openInode_spec hl.inv ho3 hl.valid fun hmode hty => hdir ⟨hty, hmode⟩).mono
          fun _ _ hs => hs.toDid

/-- Without `O_CREATE`, opening a file leaves the directories alone. -/
theorem sysOpen_spared {omode : Nat} (hmode : omode &&& O_CREATE = 0)
    (hroom : al.room → Room s t 2) :
    Wp (Allowed al) (sysOpen sb p path omode) s fun _ s' => Spared sb s s' := by
  unfold sysOpen
  split
  · exact (Did.refl sb s).spared rfl
  · next path _ =>
    refine beginOp_spec.bind ?_
    rintro _ s1 ⟨hc1, ho1⟩
    have hinv1 := hc1.inv h
    have hpos1 : 0 < s1.outstanding := by
      rw [ho1]
      exact succ_pos _
    have h01 : Spared sb s s1 := hc1.did.spared hc1.files
    rw [if_neg (not_not.mpr hmode)]
    refine (namei_spec hinv1 (hc1.did.dirs hd) hpos1 (by rwa [hc1.proc]) path fun hr =>
      (hroom hr).congr hc1.file).bind ?_
    rintro r s2 ⟨hnamed, hm2, hwalked2⟩
    have h02 := h01.trans (hm2.spared hwalked2)
    cases r with
    | none =>
      refine (end_spared hnamed (-1)).mono ?_
      rintro _ s3 ⟨_, h23, _⟩
      exact h02.trans h23
    | some e =>
      dsimp only [Option.map]
      refine (ilock_spec hnamed).bind ?_
      intro _ s3 hl
      have h03 := h02.trans (hl.moved.spared hl.walked)
      have hpos3 : 0 < s3.outstanding := by
        rw [hl.moved.calm.outstanding, hm2.calm.outstanding]
        exact hpos1
      rw [wp_bind, wp_getInode]
      by_cases hdir : (s3.inode e).din.type = T_DIR ∧ omode ≠ O_RDONLY
      · rw [if_pos hdir]
        refine (release_spared hl.inv hpos3 (-1)).mono ?_
        rintro _ s4 ⟨_, h34, _⟩
        exact h03.trans h34
      · rw [if_neg hdir]
        refine (openInode_spec hl.inv hpos3 hl.valid fun hmode hty => hdir ⟨hty, hmode⟩).mono ?_
        rintro _ s4 ⟨_, h34, _⟩
        exact h03.trans h34

omit h hd hcwd in
theorem created_spec {s0 : State} {type : Int16} {r : Option (Fin NINODE)}
    (h : Created sb t type s0 r s) (ho : 0 < s0.outstanding) :
    Wp (Allowed al) (created sb r) s fun _ s' => Called Did sb t 1 s0 s' := by
  cases r with
  | none => exact (end_spec h.1 (-1)).mono fun _ _ hs => hs.moved h.2
  | some e =>
    obtain ⟨hinv, hm, -, -⟩ := h
    exact (release_spec hinv (hm.calm.pos ho) 0).mono fun _ _ hs => hs.moved hm

theorem make_spec {type : Int16} (htype : type ≠ 0) (major minor : Int16)
    (hroom : al.room → Room s t 2) :
    Wp (Allowed al) (do
        beginOp
        match argstr path with
        | none => created sb none
        | some path => do
            let r ← create sb p path type major minor
            created sb r : FsM Int) s fun _ s' => Called Did sb t 0 s s' := by
  refine op_spec h ?_
  intro s1 hc1 hinv1 ho1
  split
  · have hnone : Created sb t type s1 none s1 := ⟨hinv1, .refl sb t s1⟩
    exact created_spec hnone ho1
  · next path _ =>
    refine (create_spec hinv1 (hc1.did.dirs hd) ho1 (by rwa [hc1.proc]) path htype major
      minor fun hr => (hroom hr).congr hc1.file).bind ?_
    intro r s2 hr
    exact created_spec hr ho1

end

theorem readAll_spec (h : Inv sb s t) (hr : 0 < (s.inode e).ref) (hv : (s.inode e).valid)
    (reads : List (Nat × Nat)) : Wp (Allowed al) (readAll sb e reads) s fun _ s' => s' = s := by
  induction reads with
  | nil => rfl
  | cons x reads ih =>
    rw [readAll]
    refine (readi_spec h hr hv _ _ _).bind ?_
    intro _ s1 hs1
    subst hs1
    exact ih

theorem sysExec_spec (h : Inv sb s t) (hd : Dirs sb.ninodes al.whole (s.files sb))
    (hcwd : 0 < t (s.proc p).cwd) (path : List UInt8) (argv : Bool) (reads : List (Nat × Nat))
    (r : Int) (hroom : al.room → Room s t 2) :
    Wp (Allowed al) (sysExec sb p path argv reads r) s fun _ s' => Called Did sb t 0 s s' := by
  unfold sysExec
  split
  · exact .refl h
  · next path _ =>
    by_cases hargv : argv = true
    · rw [if_pos hargv]
      refine op_spec h ?_
      intro s1 hc1 hinv1 ho1
      refine lookup_spec hinv1 (hc1.did.dirs hd) ho1 (by rwa [hc1.proc]) path
        (fun hr => (hroom hr).congr hc1.file) ?_
      intro e s2 s3 hl hm
      refine (readAll_spec hl.inv hl.ref hl.valid reads).bind ?_
      intro _ s4 hs4
      subst hs4
      exact release_spec hl.inv (hm.calm.pos ho1) r
    · rw [if_neg hargv]
      exact .refl h

theorem argfd_wp {E : Stop → Prop} {fd : Int} {k : Option (Fin NOFILE × Fin NFILE) → FsM Int}
    {Q : Int → State → Prop} (hnone : Wp E (k none) s Q)
    (hsome : ∀ fd f, (s.proc p).ofile fd = some f → Wp E (k (some (fd, f))) s Q) :
    Wp E (argfd p fd >>= k) s Q := by
  simp only [argfd, wp_bind, wp_get]
  split
  · split
    · next f hf => exact hsome _ f hf
    · exact hnone
  · exact hnone

section

variable (h : Inv sb s t)
include h

theorem sysClose_spec (fd : Int) :
    Wp (Allowed al) (sysClose sb p fd) s fun _ s' => Called Did sb t 0 s s' := by
  rw [sysClose]
  refine argfd_wp (.refl h) fun fd f _ => ?_
  simp only [clearFd]
  refine (setOfile_spec _).bind ?_
  intro _ s2 hof
  exact (fileclose_spec (hof.inv h)).bind fun _ _ hs => hs.after hof.did hof.outstanding

theorem filedup_spec (f : Fin NFILE) :
    Wp (Allowed al) (filedup f) s fun _ s' =>
      Inv sb s' t ∧ ∃ x, s' = s.setF f x := by
  simp only [filedup, wp_bind, wp_get]
  by_cases hf : (s.file f).ref < 1
  · rw [if_pos hf]
    trivial
  · rw [if_neg hf, wp_setFile]
    exact ⟨h.setF_same rfl rfl rfl fun h0 => absurd h0 (succ_ne_zero _), _, rfl⟩

theorem sysDup_spec (fd : Int) :
    Wp (Allowed al) (sysDup p fd) s fun _ s' => Called Did sb t 0 s s' := by
  rw [sysDup]
  refine argfd_wp (.refl h) fun fd f _ => ?_
  simp only []
  refine fdalloc_spec.bind ?_
  intro r s2 hof
  cases r with
  | none => exact ⟨hof.inv h, hof.did, hof.outstanding⟩
  | some fd =>
    refine (filedup_spec (hof.inv h) f).bind ?_
    rintro _ s3 ⟨hinv3, x, hs3⟩
    subst hs3
    exact ⟨hinv3, hof.did.trans (setF_did x), hof.outstanding⟩

theorem sysRead_spec (fd : Int) (ok : Nat → Nat → Bool) (n io : Int) :
    Wp (Allowed al) (sysRead sb p fd ok n io) s fun _ s' => Called Did sb t 0 s s' := by
  rw [sysRead]
  exact argfd_wp (.refl h) fun _ _ _ => fileread_spec h ok n io

theorem sysWrite_spec (fd : Int) (src : Source) (n io : Int) :
    Wp (Allowed al) (sysWrite sb p fd src n io) s fun _ s' =>
      Inv sb s' t ∧ (Did sb s s' ∧ SameDirs sb s s') ∧ s'.outstanding = s.outstanding := by
  rw [sysWrite]
  exact argfd_wp ⟨h, ⟨.refl sb s, fun _ _ hi _ => hi⟩, rfl⟩ fun _ _ _ => filewrite_spec h src n io

theorem sysFstat_spec (fd : Int) (ok : Bool) :
    Wp (Allowed al) (sysFstat sb p fd ok) s fun _ s' => Called Did sb t 0 s s' := by
  rw [sysFstat]
  refine argfd_wp (.refl h) fun fd f _ => ?_
  simp only []
  rw [wp_bind, wp_get]
  by_cases hf : (s.file f).type = .inode ∨ (s.file f).type = .device
  · rw [if_pos hf]
    refine (ilock_spec h).bind ?_
    intro _ s2 hl
    refine (iunlock_spec hl.inv).bind ?_
    rintro _ s3 ⟨hs3, hinv3⟩
    subst hs3
    exact ⟨hinv3, hl.moved.did.trans (unlock_did _ _), hl.moved.calm.outstanding⟩
  · rw [if_neg hf]
    exact .refl h

theorem Inv.setPipe {f : Fin NFILE} {x : File}
    (hold : (s.file f).type = .none ∨ (s.file f).type = .pipe) (htype : x.type = .pipe)
    (href : x.ref ≠ 0) : Inv sb (s.setF f x) t := by
  apply h.setF
  · intro e
    have h1 : x.refTo e = 0 := by
      apply if_neg
      rw [htype]
      simp
    have h2 : (s.file f).refTo e = 0 := by
      apply if_neg
      intro hh
      cases hold with
      | inl hold | inr hold =>
        rw [hold] at hh
        simp at hh
    rw [h1, h2]
  · exact fun h0 => absurd h0 href
  · intro hx
    rw [htype] at hx
    cases hx

end

theorem closeBoth_spec {α : Type} (h : Inv sb s t) (f g : Fin NFILE) (r : α) :
    Wp (Allowed al) (do fileclose sb f; fileclose sb g; return r : FsM α) s fun _ s' =>
      Called Did sb t 0 s s' := by
  refine (fileclose_spec h).bind ?_
  intro _ s1 h1
  exact (fileclose_spec h1.inv).bind fun _ _ h2 => h2.after h1.did h1.outstanding

theorem pipealloc_spec (h : Inv sb s t) (mem : Bool) :
    Wp (Allowed al) (pipealloc sb mem) s fun _ s' => Called Did sb t 0 s s' := by
  rw [pipealloc]
  refine (filealloc_spec h).bind ?_
  intro r s1 hr1
  cases r with
  | none =>
    rw [hr1]
    exact .refl h
  | some f0 =>
    obtain ⟨hinv1, hs1, hnone1⟩ := hr1
    have hdid1 : Did sb s s1 := by
      rw [hs1]
      exact setF_did _
    have hout1 : s1.outstanding = s.outstanding := by
      rw [hs1]
      rfl
    refine (filealloc_spec hinv1).bind ?_
    intro r s2 hr2
    cases r with
    | none =>
      rw [hr2]
      exact (fileclose_spec hinv1).bind fun _ _ h3 => h3.after hdid1 hout1
    | some f1 =>
      obtain ⟨hinv2, hs2, hnone2⟩ := hr2
      have hdid2 : Did sb s s2 := by
        rw [hs2]
        exact hdid1.trans (setF_did _)
      have hout2 : s2.outstanding = s.outstanding := by
        rw [hs2]
        exact hout1
      have hfree1 : (s2.file f1).type = .none ∧ (s2.file f1).ref ≠ 0 := by
        rw [hs2, setF_file_self]
        exact ⟨hnone2, Nat.one_ne_zero⟩
      have hfree0 : (s2.file f0).type = .none ∧ (s2.file f0).ref ≠ 0 := by
        by_cases h01 : f0 = f1
        · rw [h01]
          exact hfree1
        · rw [hs2, setF_file_of_ne h01, hs1, setF_file_self]
          exact ⟨hnone1, Nat.one_ne_zero⟩
      simp only []
      rw [wp_ite]
      split_ifs with hmem
      · rw [wp_bind, newPipe, wp_bind, wp_get, wp_bind, wp_set, wp_pure]
        generalize hs3 : ({ s2 with pipe := _, npipe := _ } : State) = s3
        have hfile3 : s3.file = s2.file := by rw [← hs3]
        have hinv3 : Inv sb s3 t := by
          rw [← hs3]
          exact hinv2.congr rfl rfl rfl
        have hdid3 : Did sb s s3 := by
          rw [← hs3]
          exact hdid2.trans (.of_eq rfl rfl rfl)
        have hout3 : s3.outstanding = s.outstanding := by
          rw [← hs3]
          exact hout2
        rw [← hfile3] at hfree0 hfree1
        rw [wp_bind, wp_setFile]
        generalize hx : ({ s3.file f0 with
          type := .pipe, readable := _, writable := _, pipe := _ } : File) = x
        have hx' : x.type = .pipe ∧ x.ref ≠ 0 := by
          rw [← hx]
          exact ⟨rfl, hfree0.2⟩
        have hinv4 : Inv sb (s3.setF f0 x) t := hinv3.setPipe (.inl hfree0.1) hx'.1 hx'.2
        have hpipe : (((s3.setF f0 x).file f1).type = .none ∨
            ((s3.setF f0 x).file f1).type = .pipe) ∧ ((s3.setF f0 x).file f1).ref ≠ 0 := by
          by_cases h10 : f1 = f0
          · rw [h10, setF_file_self]
            exact ⟨.inr hx'.1, hx'.2⟩
          · rw [setF_file_of_ne h10]
            exact ⟨.inl hfree1.1, hfree1.2⟩
        rw [wp_bind, wp_setFile, wp_pure]
        refine ⟨hinv4.setPipe hpipe.1 rfl hpipe.2, ?_, hout3⟩
        exact (hdid3.trans (setF_did _)).trans (setF_did _)
      · exact (closeBoth_spec hinv2 f0 f1 _).mono fun _ _ h3 => h3.after hdid2 hout2

theorem sysPipe_spec (h : Inv sb s t) (mem ok : Bool) :
    Wp (Allowed al) (sysPipe sb p mem ok) s fun _ s' => Called Did sb t 0 s s' := by
  rw [sysPipe]
  refine (pipealloc_spec h mem).bind ?_
  intro r s1 h1
  cases r with
  | none => exact h1
  | some x =>
    obtain ⟨rf, wf⟩ := x
    -- Every way out of here has changed only descriptors before it closes both files.
    have hclose : ∀ s2, OfileOnly s1 s2 →
        Wp (Allowed al) (do fileclose sb rf; fileclose sb wf; return -1 : FsM Int) s2 fun _ s' =>
          Called Did sb t 0 s s' := by
      intro s2 hof
      exact (closeBoth_spec (hof.inv h1.inv) rf wf _).mono fun _ _ h3 =>
        (h3.after hof.did hof.outstanding).after h1.did h1.outstanding
    simp only [clearFd]
    refine fdalloc_spec.bind ?_
    intro r s2 hof2
    cases r with
    | none => exact hclose s2 hof2
    | some fd0 =>
      simp only []
      refine fdalloc_spec.bind ?_
      intro r s3 hof3
      have hof3 := hof2.trans hof3
      cases r with
      | none =>
        simp only []
        refine (setOfile_spec _).bind ?_
        intro _ s4 hof4
        exact hclose s4 (hof3.trans hof4)
      | some fd1 =>
        simp only []
        rw [wp_ite]
        split_ifs
        · exact ⟨hof3.inv h1.inv, h1.did.trans hof3.did, hof3.outstanding.trans h1.outstanding⟩
        · refine (setOfile_spec _).bind ?_
          intro _ s4 hof4
          refine (setOfile_spec _).bind ?_
          intro _ s5 hof5
          exact hclose s5 ((hof3.trans hof4).trans hof5)

theorem forkFiles_spec (h : Inv sb s t) (p q : Fin NPROC) (fds : List (Fin NOFILE)) :
    Wp (Allowed al) (forkFiles p q fds) s fun _ s' => Called Did sb t 0 s s' := by
  induction fds generalizing s with
  | nil => exact .refl h
  | cons fd fds ih =>
    rw [forkFiles, wp_bind, wp_get]
    split
    · exact ih h
    · next f _ =>
      refine (filedup_spec h f).bind ?_
      rintro _ s1 ⟨hinv1, x, hs1⟩
      subst hs1
      refine (setOfile_spec _).bind ?_
      intro _ s2 hof
      exact (ih (hof.inv hinv1)).mono fun _ _ h3 =>
        h3.after ((setF_did x).trans hof.did) hof.outstanding

theorem othersRefs_unused (hq : (s.proc q).used = false) : othersRefs s q = procRefs s := by
  funext e
  rw [othersRefs, refTo_unused hq, Nat.sub_zero]

section

variable (h : SysInv sb al s) (hp : (s.proc p).used)
include h hp

theorem fork_spec (q : Fin NPROC) (mem : Bool) :
    Wp (Allowed al) (fork p q mem) s fun _ s' => Sound sb al s s' := by
  rw [fork, wp_bind, wp_get]
  by_cases hq : (s.proc q).used = true ∨ mem = false
  · rw [if_pos hq]
    exact h.sound (.refl h.inv)
  rw [if_neg hq, wp_bind]
  have hq : (s.proc q).used = false := by
    rw [← Bool.not_eq_true]
    exact fun hq' => hq (.inl hq')
  refine (forkFiles_spec h.inv p q _).mono ?_
  rintro _ s2 ⟨hinv2, hdid2, hout2⟩
  refine (idup_spec hinv2 (hinv2.ref_pos (cwd_pos hp))).bind ?_
  rintro _ s3 ⟨hs3, hinv3, _⟩
  rw [wp_bind, setProc, wp_modify, wp_pure]
  refine h.sound_proc ⟨hinv3, ?_, ?_⟩ fun e => ?_
  · rw [hs3]
    exact hdid2.trans (unlock_did _ _)
  · rw [hs3]
    exact hout2
  · rw [othersRefs_unused hq]
    exact add_refTo rfl ..

omit h hp in
theorem exitFiles_spec (h : Inv sb s t) (p : Fin NPROC) (fds : List (Fin NOFILE)) :
    Wp (Allowed al) (exitFiles sb p fds) s fun _ s' => Called Did sb t 0 s s' := by
  induction fds generalizing s with
  | nil => exact .refl h
  | cons fd fds ih =>
    rw [exitFiles, wp_bind, wp_get]
    split
    · exact ih h
    · next f _ =>
      refine (fileclose_spec h).bind ?_
      intro _ s1 h1
      rw [wp_bind, clearFd]
      refine (setOfile_spec _).mono ?_
      intro _ s2 hof
      exact (ih (hof.inv h1.inv)).mono fun _ _ h3 =>
        (h3.after hof.did hof.outstanding).after h1.did h1.outstanding

theorem exit_spec : Wp (Allowed al) (exit sb p) s fun _ s' => Sound sb al s s' := by
  rw [exit, wp_ite]
  split_ifs
  · trivial
  refine (exitFiles_spec h.inv p _).bind ?_
  rintro _ s1 ⟨hinv1, hdid1, hout1⟩
  rw [procRefs_eq_hold hp, ← (hdid1.procs p).2] at hinv1
  rw [wp_bind, wp_get]
  refine beginOp_spec.bind ?_
  rintro _ s2 ⟨hc2, ho2⟩
  refine (iput_spec (hc2.inv hinv1) (by rw [ho2]; exact succ_pos _)).bind ?_
  intro _ s3 hput
  refine endOp_spec.bind ?_
  rintro _ s4 ⟨hc4, ho4⟩
  have hdid4 : Did sb s s4 := ((hdid1.trans hc2.did).trans hput.moved.did).trans (hc4.did hput.inv)
  rw [wp_bind, setProc, wp_modify, wp_pure]
  refine h.sound_proc ⟨hc4.inv hput.inv, hdid4, ?_⟩ fun e => ?_
  · rw [ho4, hput.calm.outstanding, ho2, hout1]
    rfl
  · rw [refTo_unused rfl, Nat.add_zero]

omit h hp in
/-- The end of `sys_chdir`: the process moves its reference from one directory to another. -/
theorem moveCwd_spec {s0 : State} (h : SysInv sb al s0) (hp : (s0.proc p).used)
    (hinv : Inv sb s (hold (procRefs s0) e)) (hdid : Did sb s0 s)
    (ho : s.outstanding = s0.outstanding + 1) :
    Wp (Allowed al) (do
        iput sb (s.proc p).cwd
        endOp
        setProc p fun pr => { pr with cwd := e }
        return 0 : FsM Int) s fun _ s' => Sound sb al s0 s' := by
  rw [procRefs_eq_hold hp, hold_comm, ← (hdid.procs p).2] at hinv
  refine (iput_spec hinv (by rw [ho]; exact succ_pos _)).bind ?_
  intro _ s1 hput
  refine endOp_spec.bind ?_
  rintro _ s2 ⟨hc2, ho2⟩
  have hdid2 : Did sb s0 s2 := (hdid.trans hput.moved.did).trans (hc2.did hput.inv)
  rw [wp_bind, setProc, wp_modify, wp_pure]
  have hused : ({ s2.proc p with cwd := e } : Proc).used = true := (hdid2.procs p).1.trans hp
  refine h.sound_proc ⟨hc2.inv hput.inv, hdid2, ?_⟩ (add_refTo hused _)
  rw [ho2, hput.calm.outstanding, ho]
  rfl

theorem sysChdir_spec (path : List UInt8) (hroom : al.room → Room s (procRefs s) 2) :
    Wp (Allowed al) (sysChdir sb p path) s fun _ s' => Sound sb al s s' := by
  rw [sysChdir]
  refine beginOp_spec.bind ?_
  rintro _ s1 ⟨hc1, ho1⟩
  have hinv1 := hc1.inv h.inv
  have hpos1 : 0 < s1.outstanding := by
    rw [ho1]
    exact succ_pos _
  -- All failures give up what they hold and end the operation.
  have hend : ∀ s2 s', Did sb s s2 → s2.outstanding = s.outstanding + 1 →
      Called Did sb (procRefs s) 1 s2 s' →
      Sound sb al s s' := by
    rintro s2 s' hdid2 ho2 ⟨hinv, hdid, hout⟩
    refine h.sound ⟨hinv, hdid2.trans hdid, ?_⟩
    rw [hout, ho2]
    rfl
  split
  · refine (end_spec hinv1 (-1)).mono ?_
    intro _ s2 hs2
    exact hend s1 s2 hc1.did ho1 hs2
  · next path _ =>
    refine (namei_spec hinv1 (hc1.did.dirs h.dirs) hpos1
      (by rw [hc1.proc]; exact cwd_pos hp) path fun hr => (hroom hr).congr hc1.file).bind ?_
    rintro r s2 ⟨hnamed, hm2, _⟩
    cases r with
    | none =>
      refine (end_spec hnamed (-1)).mono ?_
      intro _ s3 hs3
      exact hend s2 s3 (hc1.did.trans hm2.did) (hm2.calm.outstanding.trans ho1) hs3
    | some e =>
      refine (ilock_spec hnamed).bind ?_
      intro _ s3 hl
      have hm3 := hm2.trans hl.moved.of_hold
      have hdid3 := hc1.did.trans hm3.did
      have ho3 : s3.outstanding = s.outstanding + 1 := hm3.calm.outstanding.trans ho1
      rw [wp_bind, wp_getInode]
      by_cases hty : (s3.inode e).din.type ≠ T_DIR
      · rw [if_pos hty]
        refine (release_spec hl.inv (by rw [ho3]; exact succ_pos _) (-1)).mono ?_
        intro _ s4 hs4
        exact hend s3 s4 hdid3 ho3 hs4
      rw [if_neg hty]
      refine (iunlock_spec hl.inv).bind ?_
      rintro _ s4 ⟨hs4, hinv4⟩
      subst hs4
      rw [wp_bind, wp_get]
      exact moveCwd_spec h hp hinv4 (hdid3.trans (unlock_did _ _)) ho3

/-- The entries of the inode table a call may take at once beyond those in use before it. -/
def Call.igets : Call → Nat
  | «open» _ _ | unlink _ | mkdir _ | mknod _ _ _ | chdir _ | exec _ _ _ _ => 2
  | link _ _ => 3
  | close _ | dup _ | read _ _ _ _ | write _ _ _ _ | fstat _ _ | pipe _ _ | fork _ _ | exit => 0

/-- Every system call keeps the invariant, and what it does to the files are steps of the abstract
file system. -/
theorem syscall_spec (c : Call) (hroom : al.room → Room s (procRefs s) c.igets)
    (hcount : al.counted → StaysCounted sb s) :
    Wp (Allowed al) (syscall sb p c) s fun _ s' => Sound sb al s s' := by
  have hcwd := cwd_pos hp
  have hsound : ∀ (r : Int) (s' : State), Called Did sb (procRefs s) 0 s s' → Sound sb al s s' :=
    fun _ _ => h.sound
  cases c with
  | «open» path omode => exact (sysOpen_spec h.inv h.dirs hcwd path omode hroom).mono hsound
  | close fd => exact (sysClose_spec h.inv fd).mono hsound
  | dup fd => exact (sysDup_spec h.inv fd).mono hsound
  | read fd ok n io => exact (sysRead_spec h.inv fd ok n io).mono hsound
  | write fd src n io =>
    refine (sysWrite_spec h.inv fd src n io).mono ?_
    rintro r s' ⟨hinv, ⟨hdid, _⟩, hout⟩
    exact hsound r s' ⟨hinv, hdid, hout⟩
  | fstat fd ok => exact (sysFstat_spec h.inv fd ok).mono hsound
  | link old new => exact (sysLink_spec h.inv h.dirs hcwd old new hroom).mono hsound
  | unlink path => exact (sysUnlink_spec h.inv h.dirs hcwd path hroom hcount).mono hsound
  | mkdir path => exact (make_spec h.inv h.dirs hcwd path (by decide) 0 0 hroom).mono hsound
  | mknod path major minor =>
    exact (make_spec h.inv h.dirs hcwd path (by decide) _ _ hroom).mono hsound
  | chdir path => exact sysChdir_spec h hp path hroom
  | exec path argv reads r =>
    exact (sysExec_spec h.inv h.dirs hcwd path argv reads r hroom).mono hsound
  | pipe mem ok => exact (sysPipe_spec h.inv mem ok).mono hsound
  | fork q mem => exact fork_spec h hp q mem
  | exit => exact exit_spec h hp

end

/-- What is known of a run only from the image it starts with. -/
abbrev Known.image (whole : Prop) : Known := ⟨whole, False, False⟩

variable {whole : Prop}

theorem syscall_of_step {l : Fin NPROC × Call} (h : Step sb s l s') :
    (s.proc l.1).used = true ∧ ∃ r, syscall sb l.1 l.2 s = .ok (r, s') := by
  unfold Step call at h
  split at h
  · next hp =>
    refine ⟨hp, ?_⟩
    cases hc : syscall sb l.1 l.2 s with
    | error x =>
      rw [hc] at h
      cases h
    | ok x =>
      rw [hc] at h
      cases h
      exact ⟨x.1, rfl⟩
  · cases h

theorem call_ok {l : Fin NPROC × Call} (h : SysInv sb (.image whole) s) (hs : Step sb s l s') :
    Sound sb (.image whole) s s' := by
  obtain ⟨hp, r, hr⟩ := syscall_of_step hs
  exact (syscall_spec h hp l.2 False.elim False.elim).result hr

theorem call_error {l : Fin NPROC × Call} {x : Stop} (h : SysInv sb al s)
    (hroom : al.room → Room s (procRefs s) l.2.igets) (hcount : al.counted → StaysCounted sb s)
    (hs : call sb s l = some (.error x)) : Allowed al x := by
  unfold call at hs
  split at hs
  · next hp =>
    have hr : syscall sb l.1 l.2 s = .error x := by
      cases hc : syscall sb l.1 l.2 s with
      | error y =>
        rw [hc] at hs
        cases hs
        rfl
      | ok y =>
        rw [hc] at hs
        cases hs
    exact (syscall_spec h hp l.2 hroom hcount).error hr
  · cases hs

theorem Sound.trans {s'' : State} (h : Sound sb al s s') (h' : Sound sb al s' s'') :
    Sound sb al s s'' := by
  refine ⟨h'.inv, h.steps.trans h'.steps, ?_⟩
  intro d hd
  rcases h'.commits d hd with hd | ⟨m, hm, himg, hto, hfrom⟩
  · rcases h.commits d hd with hd | ⟨m, hm, himg, hto, hfrom⟩
    · exact .inl hd
    · exact .inr ⟨m, hm, himg, hto, hfrom.trans h'.steps⟩
  · exact .inr ⟨m, hm, himg, h.steps.trans hto, hfrom⟩

/-- A run of system calls keeps the invariant and is a run of the abstract file system. -/
theorem run_sound {calls : List (Fin NPROC × Call)} (h : SysInv sb (.image whole) s)
    (hr : Run (Step sb) s calls s') : Sound sb (.image whole) s s' := by
  induction hr with
  | refl => exact ⟨h, .refl, fun _ hd => .inl hd⟩
  | snoc _ hs ih => exact ih.trans (call_ok ih.inv hs)

end Xv6.Fs
