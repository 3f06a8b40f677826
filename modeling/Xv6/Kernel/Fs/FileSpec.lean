import Xv6.Kernel.Fs.CreateSpec

namespace Xv6.Fs

open ByteCodec Hoare Function Nat

/-- The processes have the same current directories. -/
def SameProcs (s s' : State) : Prop :=
  ∀ p, (s'.proc p).used = (s.proc p).used ∧ (s'.proc p).cwd = (s.proc p).cwd

/-- The disk `d` was reached between `s` and `s'` with no link half made. -/
def Passed (sb : Superblock) (s s' : State) (d : Disk) : Prop :=
  ∃ m : State, m.disk = d ∧ Img sb d (dinodeAt sb d) ∧
    AbsSteps sb.ninodes (s.abs sb none) (m.abs sb none) ∧
    AbsSteps sb.ninodes (m.abs sb none) (s'.abs sb none)

/-- What a part of a system call does as a whole. -/
structure Did (sb : Superblock) (s s' : State) : Prop where
  procs : SameProcs s s'
  readAllocs : s'.hist.readAllocs = s.hist.readAllocs
  steps : AbsSteps sb.ninodes (s.abs sb none) (s'.abs sb none)
  commits : ∀ d ∈ s'.hist.commits, d ∈ s.hist.commits ∨ Passed sb s s' d

/-- The same where no directory that has a link changes. -/
structure Spared (sb : Superblock) (s s' : State) : Prop extends Did sb s s' where
  linked : ∀ i v, s.files sb i = some v → v.type = T_DIR → v.nlink ≠ 0 → s'.files sb i = some v

/-- Only the log's counters change. -/
structure Clock (s s' : State) : Prop where
  disk : s'.disk = s.disk
  inode : s'.inode = s.inode
  file : s'.file = s.file
  proc : s'.proc = s.proc
  readAllocs : s'.hist.readAllocs = s.hist.readAllocs
  freedDirs : s'.hist.freedDirs = s.hist.freedDirs
  deadParent : s'.hist.deadParent = s.hist.deadParent
  linkMax : s'.hist.linkMax = s.hist.linkMax

structure Began (s s' : State) : Prop extends Clock s s' where
  commits : s'.hist.commits = s.hist.commits

structure Ended (s s' : State) : Prop extends Clock s s' where
  commits : s'.hist.commits = s.hist.commits ∨ s'.hist.commits = s.disk :: s.hist.commits

/-- What is left by a part of a call that ends `k` operations: `R` says what it has done. -/
structure Called (R : Superblock → State → State → Prop) (sb : Superblock) (t : Fin NINODE → Nat)
    (k : Nat) (s s' : State) : Prop where
  inv : Inv sb s' t
  did : R sb s s'
  outstanding : s'.outstanding = s.outstanding - k

variable {sb : Superblock} {al : Known} {s s' : State} {t t' : Fin NINODE → Nat} {e : Fin NINODE}
  {f : Fin NFILE} {p : Fin NPROC} {k : Nat}

theorem same_commits (h : s'.hist.commits = s.hist.commits) :
    ∀ d ∈ s'.hist.commits, d ∈ s.hist.commits ∨ Passed sb s s' d := by
  intro d hd
  rw [h] at hd
  exact .inl hd

theorem Did.refl (sb : Superblock) (s : State) : Did sb s s :=
  ⟨fun _ => ⟨rfl, rfl⟩, rfl, .refl, same_commits rfl⟩

variable {s'' : State}

theorem Did.trans (h : Did sb s s') (h' : Did sb s' s'') : Did sb s s'' := by
  refine ⟨fun p => ⟨(h'.procs p).1.trans (h.procs p).1, (h'.procs p).2.trans (h.procs p).2⟩,
    h'.readAllocs.trans h.readAllocs, h.steps.trans h'.steps, ?_⟩
  intro d hd
  cases h'.commits d hd with
  | inl hd' =>
    cases h.commits d hd' with
    | inl hd0 => exact .inl hd0
    | inr hp =>
      obtain ⟨m, hm, himg, hto, hfrom⟩ := hp
      exact .inr ⟨m, hm, himg, hto, hfrom.trans h'.steps⟩
  | inr hp =>
    obtain ⟨m, hm, himg, hto, hfrom⟩ := hp
    exact .inr ⟨m, hm, himg, h.steps.trans hto, hfrom⟩

theorem Spared.trans (h : Spared sb s s') (h' : Spared sb s' s'') : Spared sb s s'' :=
  ⟨h.toDid.trans h'.toDid, fun i v hi ht hv => h'.linked i v (h.linked i v hi ht hv) ht hv⟩

theorem Did.spared (h : Did sb s s') (hf : s'.files sb = s.files sb) : Spared sb s s' :=
  ⟨h, fun i v hi _ _ => by rw [hf]; exact hi⟩

theorem Did.dirs (h : Did sb s s') (hd : Dirs sb.ninodes al.whole (s.files sb)) :
    Dirs sb.ninodes al.whole (s'.files sb) :=
  h.steps.dirs (a := s.abs sb none) hd (zero_lt_of_lt sb.root_lt)

theorem Calm.sameProcs (h : Calm s s') : SameProcs s s' := by
  intro p
  rw [h.proc]
  exact ⟨rfl, rfl⟩

theorem Calm.did (h : Calm s s')
    (hs : AbsSteps sb.ninodes (s.abs sb none) (s'.abs sb none)) : Did sb s s' :=
  ⟨h.sameProcs, h.readAllocs, hs, same_commits h.commits⟩

theorem Moved.did (h : Moved sb t s s') : Did sb s s' := h.calm.did (h.steps none)

theorem Called.refl (h : Inv sb s t) : Called Did sb t 0 s s := ⟨h, .refl sb s, rfl⟩

theorem Called.toDid (h : Called Spared sb t k s s') : Called Did sb t k s s' :=
  ⟨h.inv, h.did.toDid, h.outstanding⟩

theorem Called.after (h : Called Did sb t k s' s'') (hd : Did sb s s')
    (ho : s'.outstanding = s.outstanding) : Called Did sb t k s s'' :=
  ⟨h.inv, hd.trans h.did, by rw [h.outstanding, ho]⟩

theorem Called.moved (h : Called Did sb t k s' s'') (hm : Moved sb t' s s') :
    Called Did sb t k s s'' := h.after hm.did hm.calm.outstanding

theorem Moved.spared (h : Moved sb t s s') (hl : Walked sb s s') : Spared sb s s' :=
  ⟨h.did, fun i v hi _ hv => hl.linked i v hi hv⟩

theorem Clock.inv (h : Clock s s') (hinv : Inv sb s t) : Inv sb s' t :=
  hinv.congr h.disk h.inode h.file

theorem Clock.files (h : Clock s s') : s'.files sb = s.files sb := by
  unfold State.files
  rw [h.disk]

theorem Clock.abs_eq (h : Clock s s') (x : Option Nat) : s'.abs sb x = s.abs sb x := by
  unfold State.abs
  rw [h.files, h.freedDirs, h.deadParent, h.linkMax]

theorem Clock.did (h : Clock s s')
    (hc : ∀ d ∈ s'.hist.commits, d ∈ s.hist.commits ∨ Passed sb s s' d) : Did sb s s' := by
  refine ⟨fun p => ?_, h.readAllocs, ?_, hc⟩
  · rw [h.proc]
    exact ⟨rfl, rfl⟩
  · rw [h.abs_eq]
    exact .refl

theorem Began.did (h : Began s s') : Did sb s s' := h.toClock.did (same_commits h.commits)

theorem Ended.did (h : Ended s s') (hinv : Inv sb s t) : Did sb s s' := by
  apply h.toClock.did
  intro d hd
  cases h.commits with
  | inl hc => exact same_commits hc d hd
  | inr hc =>
    rw [hc] at hd
    cases hd with
    | head =>
      refine .inr ⟨s, rfl, hinv.img, .refl, ?_⟩
      rw [h.abs_eq]
      exact .refl
    | tail _ hd => exact .inl hd

theorem beginOp_spec :
    Wp (Allowed al) beginOp s fun _ s' => Began s s' ∧ s'.outstanding = s.outstanding + 1 := by
  simp only [beginOp, noteUnless, wp_bind, wp_get, wp_note, wp_ite, wp_throw, wp_modify]
  split_ifs
  · trivial
  · exact ⟨⟨⟨rfl, rfl, rfl, rfl, rfl, rfl, rfl, rfl⟩, rfl⟩, trivial⟩

theorem endOp_spec :
    Wp (Allowed al) endOp s fun _ s' => Ended s s' ∧ s'.outstanding = s.outstanding - 1 := by
  simp only [endOp, noteUnless, wp_bind, wp_get, wp_note, wp_ite, wp_modify]
  split_ifs with h
  · exact ⟨⟨⟨rfl, rfl, rfl, rfl, rfl, rfl, rfl, rfl⟩, .inr rfl⟩, h.symm⟩
  · exact ⟨⟨⟨rfl, rfl, rfl, rfl, rfl, rfl, rfl, rfl⟩, .inl rfl⟩, trivial⟩

theorem op_spec {m : FsM Int} (h : Inv sb s t)
    (hm : ∀ s1, Began s s1 → Inv sb s1 t → 0 < s1.outstanding →
      Wp (Allowed al) m s1 fun _ s' => Called Did sb t 1 s1 s') :
    Wp (Allowed al) (do beginOp; m : FsM Int) s fun _ s' => Called Did sb t 0 s s' := by
  refine beginOp_spec.bind ?_
  rintro _ s1 ⟨hc1, ho1⟩
  refine (hm s1 hc1 (hc1.inv h) (by rw [ho1]; exact succ_pos _)).mono ?_
  rintro _ s2 ⟨hinv2, hdid2, hout2⟩
  refine ⟨hinv2, hc1.did.trans hdid2, ?_⟩
  rw [hout2, ho1]
  rfl

theorem end_spared (h : Inv sb s t) (r : Int) :
    Wp (Allowed al) (do endOp; return r : FsM Int) s fun _ s' => Called Spared sb t 1 s s' := by
  refine endOp_spec.bind ?_
  rintro _ s1 ⟨hc1, ho1⟩
  exact ⟨hc1.inv h, (hc1.did h).spared hc1.files, ho1⟩

theorem end_spec (h : Inv sb s t) (r : Int) :
    Wp (Allowed al) (do endOp; return r : FsM Int) s fun _ s' => Called Did sb t 1 s s' :=
  (end_spared h r).mono fun _ _ hs => hs.toDid

theorem lookup_spec {k : Fin NINODE → FsM Int} (h : Inv sb s t)
    (hd : Dirs sb.ninodes al.whole (s.files sb)) (ho : 0 < s.outstanding)
    (hcwd : 0 < t (s.proc p).cwd) (path : List UInt8) (hroom : al.room → Room s t 2)
    (hk : ∀ e s0 s1, Locked sb (hold t e) s0 e s1 → Moved sb t s s1 →
      Wp (Allowed al) (k e) s1 fun _ s' => Called Did sb t 1 s1 s') :
    Wp (Allowed al) (do
        match ← namei sb p path with
        | none => do
            endOp
            return -1
        | some e => do
            ilock sb e
            k e : FsM Int) s fun _ s' => Called Did sb t 1 s s' := by
  refine (namei_spec h hd ho hcwd path hroom).bind ?_
  rintro r s1 ⟨hnamed, hm1, _⟩
  cases r with
  | none => exact (end_spec hnamed (-1)).mono fun _ _ hs => hs.moved hm1
  | some e =>
    refine (ilock_spec hnamed).bind ?_
    intro _ s2 hl
    have hm2 := hm1.trans hl.moved.of_hold
    exact (hk e s1 s2 hl hm2).mono fun _ _ hs => hs.moved hm2

def State.setF (s : State) (f : Fin NFILE) (x : File) : State :=
  { s with file := update s.file f x }

@[simp] theorem setF_file_self (x : File) : (s.setF f x).file f = x := update_self ..

theorem setF_file_of_ne {g : Fin NFILE} (h : g ≠ f) (x : File) : (s.setF f x).file g = s.file g :=
  update_of_ne h ..

theorem wp_setFile {E : Stop → Prop} {g : File → File} {Q : PUnit → State → Prop} :
    Wp E (setFile f g) s Q ↔ Q ⟨⟩ (s.setF f (g (s.file f))) := Iff.rfl

section

variable (hd : s'.disk = s.disk) (hp : s'.proc = s.proc) (hh : s'.hist = s.hist)
include hd hp hh

theorem Did.of_eq : Did sb s s' := by
  have habs : s'.abs sb none = s.abs sb none := by
    unfold State.abs State.files
    rw [hd, hh]
  refine ⟨fun p => ?_, by rw [hh], ?_, same_commits (by rw [hh])⟩
  · rw [hp]
    exact ⟨rfl, rfl⟩
  · rw [habs]
    exact .refl

theorem Spared.of_eq : Spared sb s s' := by
  refine (Did.of_eq hd hp hh).spared ?_
  unfold State.files
  rw [hd]

end

theorem setF_spared (x : File) : Spared sb s (s.setF f x) := .of_eq rfl rfl rfl

theorem setF_did (x : File) : Did sb s (s.setF f x) := (setF_spared x).toDid

theorem fileRefs_setF (x : File) (e : Fin NINODE) :
    fileRefs (s.setF f x) e + (s.file f).refTo e = fileRefs s e + x.refTo e :=
  Counting.sum_update (fun y : File => y.refTo e) s.file f x

variable {x : File}

/-- One entry of the file table is replaced, and its reference to an inode with it. -/
theorem Inv.setF (h : Inv sb s t)
    (ht : ∀ e, t' e + x.refTo e = t e + (s.file f).refTo e) (hclosed : x.ref = 0 → x.type = .none)
    (hopened : x.type = .inode → (s.inode x.ip).valid = true ∧
      (x.writable = true → (s.inode x.ip).din.type ≠ T_DIR)) : Inv sb (s.setF f x) t' := by
  constructor
  · exact h.img
  · exact h.named
  · exact h.uniq
  · exact h.cached
  · intro e
    have h1 := fileRefs_setF (s := s) (f := f) x e
    have h2 := ht e
    have h3 := h.refs e
    change (s.inode e).ref = _
    omega
  · intro g hg
    by_cases hgf : g = f
    · rw [hgf, setF_file_self] at hg ⊢
      exact hclosed hg
    · rw [setF_file_of_ne hgf] at hg ⊢
      exact h.closed g hg
  intro g hg
  by_cases hgf : g = f
  · rw [hgf, setF_file_self] at hg ⊢
    exact hopened hg
  · rw [setF_file_of_ne hgf] at hg ⊢
    exact h.opened g hg

theorem Inv.setF_same (h : Inv sb s t) (htype : x.type = (s.file f).type)
    (hip : x.ip = (s.file f).ip) (hw : x.writable = (s.file f).writable)
    (hclosed : x.ref = 0 → x.type = .none) : Inv sb (s.setF f x) t := by
  apply h.setF
  · intro e
    simp only [File.refTo, htype, hip]
  · exact hclosed
  · intro hx
    rw [hip, hw]
    exact h.opened f (htype ▸ hx)

theorem refTo_none (h : x.type = .none) (e : Fin NINODE) : x.refTo e = 0 := by
  unfold File.refTo
  rw [if_neg]
  rw [h]
  simp

theorem hold_eq_refTo (h : x.type = .inode ∨ x.type = .device)
    (t : Fin NINODE → Nat) (e : Fin NINODE) : hold t x.ip e = t e + x.refTo e := by
  unfold File.refTo
  by_cases he : e = x.ip
  · rw [if_pos ⟨h, he.symm⟩, he, hold_self]
  · rw [if_neg fun hh => he hh.2.symm, hold_of_ne t he, Nat.add_zero]

theorem filealloc_spec (h : Inv sb s t) :
    Wp (Allowed al) filealloc s fun r s' =>
      match r with
      | none => s' = s
      | some f => Inv sb s' t ∧ s' = s.setF f { s.file f with ref := 1 } ∧
          (s.file f).type = .none := by
  simp only [filealloc, wp_bind, wp_get]
  split
  · next f hfind =>
    have h0 : (s.file f).ref = 0 := by simpa using List.find?_some hfind
    rw [wp_bind, wp_setFile, wp_pure]
    refine ⟨?_, rfl, h.closed f h0⟩
    exact h.setF_same rfl rfl rfl fun h1 => absurd h1 Nat.one_ne_zero
  · rfl

/-- Only the descriptors of the processes change. -/
structure OfileOnly (s s' : State) : Prop where
  procs : SameProcs s s'
  disk : s'.disk = s.disk
  inode : s'.inode = s.inode
  file : s'.file = s.file
  outstanding : s'.outstanding = s.outstanding
  hist : s'.hist = s.hist

theorem OfileOnly.refl (s : State) : OfileOnly s s := ⟨fun _ => ⟨rfl, rfl⟩, rfl, rfl, rfl, rfl, rfl⟩

theorem OfileOnly.trans (h : OfileOnly s s') (h' : OfileOnly s' s'') : OfileOnly s s'' :=
  ⟨fun p => ⟨(h'.procs p).1.trans (h.procs p).1, (h'.procs p).2.trans (h.procs p).2⟩,
    h'.disk.trans h.disk, h'.inode.trans h.inode, h'.file.trans h.file,
    h'.outstanding.trans h.outstanding, h'.hist.trans h.hist⟩

theorem OfileOnly.inv (h : OfileOnly s s') (hinv : Inv sb s t) : Inv sb s' t :=
  hinv.congr h.disk h.inode h.file

theorem OfileOnly.did (h : OfileOnly s s') : Did sb s s' := by
  have habs : s'.abs sb none = s.abs sb none := by
    unfold State.abs State.files
    rw [h.disk, h.hist]
  refine ⟨h.procs, by rw [h.hist], ?_, same_commits (by rw [h.hist])⟩
  rw [habs]
  exact .refl

theorem setOfile_spec (g : Proc → Fin NOFILE → Option (Fin NFILE)) :
    Wp (Allowed al) (setProc p fun pr => { pr with ofile := g pr }) s fun _ s' =>
      OfileOnly s s' := by
  rw [setProc, wp_modify]
  refine ⟨fun q => ?_, rfl, rfl, rfl, rfl, rfl⟩
  by_cases hq : q = p
  · rw [hq]
    simp
  · simp [hq]

theorem fdalloc_spec : Wp (Allowed al) (fdalloc p f) s fun _ s' => OfileOnly s s' := by
  simp only [fdalloc, wp_bind, wp_get]
  split
  · rw [wp_bind]
    exact setOfile_spec _
  · exact .refl s

/-- `fileclose` drops one reference to a file. -/
theorem fileclose_spared (h : Inv sb s t) :
    Wp (Allowed al) (fileclose sb f) s fun _ s' => Called Spared sb t 0 s s' := by
  have hnone : ∀ e, ({ s.file f with ref := 0, type := .none } : File).refTo e = 0 :=
    fun e => refTo_none rfl e
  have hgone : ¬ ((s.file f).type = .inode ∨ (s.file f).type = .device) →
      Inv sb (s.setF f { s.file f with ref := 0, type := .none }) t := by
    intro h3
    apply h.setF
    · intro e
      have hold : (s.file f).refTo e = 0 := if_neg fun hh => h3 hh.1
      rw [hnone, hold]
    · exact fun _ => rfl
    · intro hx
      cases hx
  simp only [fileclose, wp_bind, wp_get, wp_ite, wp_panic, wp_setFile, wp_pure]
  split_ifs with h1 h2 hpipe h3
  · trivial
  · refine ⟨h.setF_same rfl rfl rfl ?_, .of_eq rfl rfl rfl, rfl⟩
    intro h0
    change (s.file f).ref - 1 = 0 at h0
    omega
  · have hinv := hgone (by rw [hpipe]; simp)
    exact ⟨hinv.congr rfl rfl rfl, .of_eq rfl rfl rfl, rfl⟩
  · have hclosed : Inv sb (s.setF f { s.file f with ref := 0, type := .none })
        (hold t (s.file f).ip) := by
      apply h.setF
      · intro e
        rw [hold_eq_refTo h3, hnone]
        rfl
      · exact fun _ => rfl
      · intro hx
        cases hx
    refine beginOp_spec.mono ?_
    rintro _ s1 ⟨hc1, ho1⟩
    refine (iput_spec (hc1.inv hclosed) (by rw [ho1]; exact succ_pos _)).mono ?_
    intro _ s2 hput
    refine endOp_spec.mono ?_
    rintro _ s3 ⟨hc3, ho3⟩
    have hspared1 : Spared sb s s1 := (setF_spared _).trans (hc1.did.spared hc1.files)
    refine ⟨hc3.inv hput.inv,
      (hspared1.trans (hput.moved.spared hput.walked)).trans ((hc3.did hput.inv).spared hc3.files), ?_⟩
    rw [ho3, hput.calm.outstanding, ho1]
    rfl
  · exact ⟨hgone h3, .of_eq rfl rfl rfl, rfl⟩

theorem fileclose_spec (h : Inv sb s t) :
    Wp (Allowed al) (fileclose sb f) s fun _ s' => Called Did sb t 0 s s' :=
  (fileclose_spared h).mono fun _ _ hs => hs.toDid

theorem unlock_did (e : Fin NINODE) (ip : Inode) : Did sb s (s.setIp e ip) := .of_eq rfl rfl rfl

theorem fileread_spec (h : Inv sb s t) (ok : Nat → Nat → Bool) (n io : Int) :
    Wp (Allowed al) (fileread sb f ok n io) s fun _ s' => Called Did sb t 0 s s' := by
  have hstay := Called.refl h
  simp only [fileread, wp_bind, wp_get]
  by_cases h1 : (s.file f).readable = false
  · rw [if_pos h1]
    exact hstay
  rw [if_neg h1]
  split
  · exact hstay
  · rw [wp_ite]
    split_ifs <;> exact hstay
  · next htype =>
    refine (ilock_spec h).bind ?_
    intro _ s1 hl
    have hfile : s1.file = s.file := hl.moved.calm.file
    refine (readi_spec hl.inv hl.ref hl.valid ok _ _).bind ?_
    intro r s2 hs2
    subst hs2
    have hdid := hl.moved.did
    have hout := hl.moved.calm.outstanding
    have hclosed : (s2.file f).ref = 0 → (s2.file f).type = .none := hl.inv.closed f
    simp only [wp_ite, wp_bind, wp_setFile, wp_pure]
    split_ifs with h2
    · have hinv2 : Inv sb (s2.setF f
          { s2.file f with off := ((s2.file f).off + r.1.toNat) % 2 ^ 32 }) t :=
        hl.inv.setF_same rfl rfl rfl hclosed
      refine (iunlock_spec hinv2).mono ?_
      rintro _ s3 ⟨hs3, hinv3⟩
      refine ⟨hinv3, ?_, ?_⟩
      · rw [hs3]
        exact (hdid.trans (setF_did _)).trans (unlock_did _ _)
      · rw [hs3]
        exact hout
    refine (iunlock_spec hl.inv).mono ?_
    rintro _ s3 ⟨hs3, hinv3⟩
    refine ⟨hinv3, ?_, ?_⟩
    · rw [hs3]
      exact hdid.trans (unlock_did _ _)
    · rw [hs3]
      exact hout
  · trivial

/-- The directories are as they were. -/
def SameDirs (sb : Superblock) (s s' : State) : Prop :=
  ∀ i v, s.files sb i = some v → v.type = T_DIR → s'.files sb i = some v

section

variable (h : Inv sb s t) (htype : (s.file f).type = .inode) (hw : (s.file f).writable)
  (src : Source)
include h htype hw

/-- One operation of `filewrite`. -/
theorem filewriteRound_spec (n1 : Nat) {Q : Int → State → Prop}
    (hQ : ∀ r s', Inv sb s' t → Did sb s s' → SameDirs sb s s' → s'.outstanding = s.outstanding →
      (s'.file f).type = .inode → (s'.file f).writable = true → Q r s') :
    Wp (Allowed al) beginOp s fun _ s1 =>
      Wp (Allowed al) (ilock sb (s.file f).ip) s1 fun _ s2 =>
        Wp (Allowed al) (writei sb (s.file f).ip src (s.file f).off n1) s2 fun r s3 =>
          Wp (Allowed al) (setFile f fun x =>
              if 0 < r then { x with off := (x.off + r.toNat) % 2 ^ 32 } else x) s3 fun _ s4 =>
            Wp (Allowed al) (iunlock (s.file f).ip) s4 fun _ s5 =>
              Wp (Allowed al) endOp s5 fun _ s6 => Q r s6 := by
  refine beginOp_spec.mono ?_
  rintro _ s1 ⟨hc1, ho1⟩
  have h1 := hc1.inv h
  refine (ilock_spec h1).mono ?_
  intro _ s2 hl
  have hfile2 : s2.file = s.file := hl.moved.calm.file.trans hc1.file
  have ho2 : s2.outstanding = s.outstanding + 1 := hl.moved.calm.outstanding.trans ho1
  have hnodir : (s2.inode (s.file f).ip).din.type ≠ T_DIR := by
    have := (hl.inv.opened f (by rw [hfile2]; exact htype)).2
    rw [hfile2] at this
    exact this hw
  refine (writei_spec hl.inv hl.ref hl.valid (by rw [ho2]; exact succ_pos _) src _ _).mono ?_
  rintro r s3 ⟨hinv3, ⟨size, data, hfiles3⟩, _, hframe3⟩
  have hfile3 : s3.file = s.file := hframe3.file.trans hfile2
  have hstep : AbsSteps sb.ninodes (s2.abs sb none) (s3.abs sb none) := by
    rw [hframe3.abs_set hfiles3]
    exact .single (.write size data (hl.inv.files_eq hl.ref hl.valid) hnodir)
  have hdid3 : Did sb s s3 := (hc1.did.trans hl.moved.did).trans (hframe3.calm.did hstep)
  rw [wp_setFile]
  generalize hx : (if 0 < r then { s3.file f with off := ((s3.file f).off + r.toNat) % 2 ^ 32 }
    else s3.file f) = x
  have hxf : x.type = (s3.file f).type ∧ x.ip = (s3.file f).ip ∧
      x.writable = (s3.file f).writable ∧ x.ref = (s3.file f).ref := by
    rw [← hx]
    split_ifs <;> exact ⟨rfl, rfl, rfl, rfl⟩
  have hinv4 : Inv sb (s3.setF f x) t := by
    apply hinv3.setF_same hxf.1 hxf.2.1 hxf.2.2.1
    rw [hxf.1, hxf.2.2.2]
    exact hinv3.closed f
  refine (iunlock_spec hinv4).mono ?_
  rintro _ s5 ⟨hs5, hinv5⟩
  refine endOp_spec.mono ?_
  rintro _ s6 ⟨hc6, ho6⟩
  have hfile6 : s6.file f = x := by
    rw [hc6.file, hs5]
    exact setF_file_self x
  apply hQ r s6 (hc6.inv hinv5)
  · have hdid5 : Did sb (s3.setF f x) s5 := by
      rw [hs5]
      exact unlock_did _ _
    exact ((hdid3.trans (setF_did x)).trans hdid5).trans (hc6.did hinv5)
  · intro i v hi hdir
    have hfiles6 : s6.files sb = s3.files sb := by
      rw [hc6.files, hs5]
      rfl
    have hfiles2 : s2.files sb = s.files sb := by
      rw [hl.eq, setIp_files, hc1.files]
    rw [hfiles6, hfiles3, update_of_ne, hfiles2]
    · exact hi
    · rintro rfl
      rw [← hfiles2, hl.inv.files_eq hl.ref hl.valid] at hi
      cases hi
      exact hnodir hdir
  · rw [ho6, hs5]
    change s3.outstanding - 1 = _
    rw [hframe3.outstanding, ho2]
    rfl
  · rw [hfile6, hxf.1, hfile3]
    exact htype
  · rw [hfile6, hxf.2.2.1, hfile3]
    exact hw

theorem filewriteLoop_spec (n fuel i : Nat) (hfuel : n - i ≤ fuel) :
    Wp (Allowed al) (filewriteLoop sb f src n fuel i) s fun _ s' =>
      Inv sb s' t ∧ (Did sb s s' ∧ SameDirs sb s s') ∧ s'.outstanding = s.outstanding := by
  induction fuel generalizing s i with
  | zero =>
    rw [filewriteLoop, if_neg (by omega)]
    exact ⟨h, ⟨.refl sb s, fun _ _ hi _ => hi⟩, rfl⟩
  | succ fuel ih =>
    rw [filewriteLoop]
    by_cases hi : i < n
    · rw [if_pos hi]
      simp only [wp_bind, wp_get]
      apply filewriteRound_spec h htype hw
      intro r s' hinv hdid hdirs hout htype' hw'
      rw [wp_ite]
      split_ifs with hr
      · exact ⟨hinv, ⟨hdid, hdirs⟩, hout⟩
      · have hmax : 0 < maxWrite := by decide
        refine (ih hinv htype' hw' _ (by omega)).mono ?_
        rintro _ s'' ⟨hinv', ⟨hdid', hdirs'⟩, hout'⟩
        exact ⟨hinv', ⟨hdid.trans hdid', fun i v hi hv => hdirs' i v (hdirs i v hi hv) hv⟩,
          hout'.trans hout⟩
    · rw [if_neg hi]
      exact ⟨h, ⟨.refl sb s, fun _ _ hi _ => hi⟩, rfl⟩

end

theorem filewrite_spec (h : Inv sb s t) (src : Source) (n io : Int) :
    Wp (Allowed al) (filewrite sb f src n io) s fun _ s' =>
      Inv sb s' t ∧ (Did sb s s' ∧ SameDirs sb s s') ∧ s'.outstanding = s.outstanding := by
  have hstay : Inv sb s t ∧ (Did sb s s ∧ SameDirs sb s s) ∧ s.outstanding = s.outstanding :=
    ⟨h, ⟨.refl sb s, fun _ _ hi _ => hi⟩, rfl⟩
  simp only [filewrite, wp_bind, wp_get]
  by_cases h1 : (s.file f).writable = false
  · rw [if_pos h1]
    exact hstay
  rw [if_neg h1]
  split
  · exact hstay
  · rw [wp_ite]
    split_ifs <;> exact hstay
  · next htype =>
    refine (filewriteLoop_spec h htype (by simpa using h1) src _ _ _ (by omega)).bind ?_
    intro _ s' hs'
    exact hs'
  · trivial

variable (h : Inv sb s (hold t e))
include h

theorem release_spared (ho : 0 < s.outstanding) (r : Int) :
    Wp (Allowed al) (do iunlockput sb e; endOp; return r : FsM Int) s fun _ s' =>
      Called Spared sb t 1 s s' := by
  refine (iunlockput_spec h ho).bind ?_
  intro _ s1 hput
  refine endOp_spec.bind ?_
  rintro _ s2 ⟨hc, hout⟩
  refine ⟨hc.inv hput.inv, (hput.moved.spared hput.walked).trans ((hc.did hput.inv).spared hc.files), ?_⟩
  rw [hout, hput.calm.outstanding]

theorem release_spec (ho : 0 < s.outstanding) (r : Int) :
    Wp (Allowed al) (do iunlockput sb e; endOp; return r : FsM Int) s fun _ s' =>
      Called Did sb t 1 s s' :=
  (release_spared h ho r).mono fun _ _ hs => hs.toDid

omit h in
theorem openEnd_spec (h : Inv sb s t) (r : Int) :
    Wp (Allowed al) (do iunlock e; endOp; return r : FsM Int) s fun _ s' =>
      Called Spared sb t 1 s s' := by
  refine (iunlock_spec h).bind ?_
  rintro _ s1 ⟨hs1, hinv1⟩
  refine endOp_spec.bind ?_
  rintro _ s2 ⟨hc, hout⟩
  refine ⟨hc.inv hinv1, ?_, ?_⟩
  · refine Spared.trans ?_ ((hc.did hinv1).spared hc.files)
    rw [hs1]
    exact .of_eq rfl rfl rfl
  · rw [hout, hs1]
    rfl

/-- A new open file takes over a reference to `e`. -/
theorem Inv.open (hfile : (s.file f).type = .none) (htype : x.type = .inode ∨ x.type = .device)
    (hip : x.ip = e) (href : x.ref ≠ 0) (hv : (s.inode e).valid)
    (hw : x.writable = true → (s.inode e).din.type ≠ T_DIR) : Inv sb (s.setF f x) t := by
  apply h.setF
  · intro e'
    rw [refTo_none hfile, ← hip, hold_eq_refTo htype]
    rfl
  · exact fun h0 => absurd h0 href
  · intro _
    rw [hip]
    exact ⟨hv, hw⟩

omit h in
theorem openTrunc_spec (h : Inv sb s t) (ho : 0 < s.outstanding) (hr : 0 < (s.inode e).ref)
    (hv : (s.inode e).valid) {type : Int16} (htype : type = (s.inode e).din.type)
    (omode : Nat) (r : Int) :
    Wp (Allowed al) (if omode &&& O_TRUNC ≠ 0 ∧ type = T_FILE then
        (do itrunc sb e; iunlock e; endOp; return r : FsM Int)
      else (do iunlock e; endOp; return r : FsM Int)) s fun _ s' => Called Spared sb t 1 s s' := by
  rw [wp_ite]
  split_ifs with h1
  · refine (truncate_spec h hr hv ho).bind ?_
    rintro _ s1 ⟨hinv1, hfiles1, _, hframe1⟩
    have hnodir : (s.inode e).din.type ≠ T_DIR := by
      rw [← htype, h1.2]
      decide
    have hstep : AbsSteps sb.ninodes (s.abs sb none) (s1.abs sb none) := by
      rw [hframe1.abs_set hfiles1]
      exact .single (.write _ _ (h.files_eq hr hv) hnodir)
    refine (openEnd_spec hinv1 r).mono ?_
    rintro _ s2 ⟨hinv2, hdid2, hout2⟩
    have hspared1 : Spared sb s s1 := by
      refine ⟨hframe1.calm.did hstep, fun i v hi ht _ => ?_⟩
      rw [hfiles1, update_of_ne]
      · exact hi
      · rintro rfl
        rw [h.files_eq hr hv] at hi
        cases hi
        exact hnodir ht
    refine ⟨hinv2, hspared1.trans hdid2, ?_⟩
    rw [hout2, hframe1.outstanding]
  · exact openEnd_spec h r

theorem openInode_spec (ho : 0 < s.outstanding) (hv : (s.inode e).valid) {omode : Nat}
    (hdir : omode ≠ O_RDONLY → (s.inode e).din.type ≠ T_DIR) :
    Wp (Allowed al) (openInode sb p e omode) s fun _ s' => Called Spared sb t 1 s s' := by
  have hr := h.ref_pos (e := e) (hold_pos ..)
  rw [openInode, wp_bind, wp_getInode]
  by_cases h1 : (s.inode e).din.type = T_DEVICE ∧
      ((s.inode e).din.major < 0 ∨ (NDEV : Int) ≤ (s.inode e).din.major.toInt)
  · rw [if_pos h1]
    exact release_spared h ho _
  rw [if_neg h1]
  refine (filealloc_spec h).bind ?_
  intro r s1 hr1
  cases r with
  | none =>
    rw [hr1]
    exact release_spared h ho _
  | some f =>
    obtain ⟨hinv1, hs1, hnone⟩ := hr1
    refine fdalloc_spec.bind ?_
    intro r s2 hof
    have hinv2 := hof.inv hinv1
    have hdid2 : Spared sb s s2 := by
      refine Spared.trans ?_ (hof.did.spared ?_)
      · rw [hs1]
        exact .of_eq rfl rfl rfl
      · unfold State.files
        rw [hof.disk]
    have hout2 : s2.outstanding = s.outstanding := by
      rw [hof.outstanding, hs1]
      rfl
    have hino2 : s2.inode = s.inode := by
      rw [hof.inode, hs1]
      rfl
    have hfile2 : s2.file f = { s.file f with ref := 1 } := by
      rw [hof.file, hs1]
      exact setF_file_self _
    cases r with
    | none =>
      refine (fileclose_spared hinv2).bind ?_
      rintro _ s3 ⟨hinv3, hdid3, hout3⟩
      refine (release_spared hinv3 (by rw [hout3, hout2]; exact ho) _).mono ?_
      rintro _ s4 ⟨hinv4, hdid4, hout4⟩
      exact ⟨hinv4, (hdid2.trans hdid3).trans hdid4, by omega⟩
    | some fd =>
      rw [wp_bind, wp_setFile]
      refine Wp.mono (openTrunc_spec (Inv.open hinv2 ?_ ?_ ?_ ?_ ?_ ?_) ?_ ?_ ?_ ?_ omode _) ?_
      · rw [hfile2]
        exact hnone
      · change (if _ then _ else _) = _ ∨ (if _ then _ else _) = _
        split_ifs
        · exact .inr rfl
        · exact .inl rfl
      · rfl
      · change (s2.file f).ref ≠ 0
        rw [hfile2]
        exact Nat.one_ne_zero
      · rwa [hino2]
      · intro hw
        rw [hino2]
        apply hdir
        intro h0
        rw [h0] at hw
        simp [O_RDONLY] at hw
      · exact hout2 ▸ ho
      · change 0 < (s2.inode e).ref
        rwa [hino2]
      · change (s2.inode e).valid = true
        rwa [hino2]
      · change _ = (s2.inode e).din.type
        rw [hino2]
      · rintro _ s3 ⟨hinv3, hdid3, hout3⟩
        exact ⟨hinv3, (hdid2.trans (setF_spared _)).trans hdid3, hout3.trans (by rw [← hout2]; rfl)⟩

end Xv6.Fs
