import Xv6.Kernel.Fs.Invariant

namespace Xv6.Fs

open ByteCodec Hoare Function List Nat

def State.abs (sb : Superblock) (s : State) (extra : Option Nat) : Abs :=
  ⟨s.files sb, s.hist.freedDirs, extra, s.hist.deadParent, s.hist.linkMax⟩

/-- What operations on inodes leave alone besides the files. -/
structure Calm (s s' : State) : Prop where
  file : s'.file = s.file
  proc : s'.proc = s.proc
  outstanding : s'.outstanding = s.outstanding
  readAllocs : s'.hist.readAllocs = s.hist.readAllocs
  commits : s'.hist.commits = s.hist.commits

theorem Calm.refl (s : State) : Calm s s := ⟨rfl, rfl, rfl, rfl, rfl⟩

variable {s' s s'' : State}

theorem Calm.pos (h : Calm s s') (ho : 0 < s.outstanding) : 0 < s'.outstanding :=
  ho.trans_eq h.outstanding.symm

theorem Calm.trans (h : Calm s s') (h' : Calm s' s'') : Calm s s'' :=
  ⟨h'.file.trans h.file, h'.proc.trans h.proc, h'.outstanding.trans h.outstanding,
    h'.readAllocs.trans h.readAllocs, h'.commits.trans h.commits⟩

theorem Frame.calm (h : Frame s s') : Calm s s' :=
  ⟨h.file, h.proc, h.outstanding, h.readAllocs, h.commits⟩

theorem Frame.abs_eq {sb : Superblock} (h : Frame s s')
    (hf : s'.files sb = s.files sb) (x : Option Nat) : s'.abs sb x = s.abs sb x := by
  unfold State.abs
  rw [hf, h.freedDirs, h.deadParent, h.linkMax]

variable {i : Nat}

theorem Frame.abs_set {sb : Superblock} (h : Frame s s') {v : Option View}
    (hf : s'.files sb = update (s.files sb) i v) (x : Option Nat) :
    s'.abs sb x = (s.abs sb x).set i v := by
  unfold State.abs Abs.set
  rw [hf, h.freedDirs, h.deadParent, h.linkMax]

def hold (t : Fin NINODE → Nat) (e : Fin NINODE) : Fin NINODE → Nat :=
  update t e (t e + 1)

section

variable (t : Fin NINODE → Nat)

@[simp] theorem hold_self (e : Fin NINODE) : hold t e e = t e + 1 := update_self ..

theorem hold_pos (e : Fin NINODE) : 0 < hold t e e := by
  rw [hold_self]
  exact succ_pos _

theorem hold_of_ne {e e' : Fin NINODE} (h : e' ≠ e) : hold t e e' = t e' := update_of_ne h ..

theorem le_hold (e e' : Fin NINODE) : t e' ≤ hold t e e' := by
  by_cases h : e' = e
  · rw [h, hold_self]
    exact le_succ _
  · rw [hold_of_ne t h]

theorem hold_comm (a b : Fin NINODE) : hold (hold t a) b = hold (hold t b) a := by
  funext e
  by_cases hab : a = b
  · rw [hab]
  by_cases ha : e = a
  · subst ha
    rw [hold_of_ne _ hab, hold_self, hold_self, hold_of_ne _ hab]
  · rw [hold_of_ne _ ha]
    by_cases hb : e = b
    · subst hb
      rw [hold_self, hold_self, hold_of_ne _ ha]
    · rw [hold_of_ne _ hb, hold_of_ne _ hb, hold_of_ne _ ha]

end

/-- At least `k` entries of the inode table are free if `t` counts the references held outside of
the file table. -/
def Room (s : State) (t : Fin NINODE → Nat) (k : Nat) : Prop :=
  k ≤ (Finset.univ.filter fun e => fileRefs s e + t e = 0).card

/-- The entries referenced by `t` stay in the table. -/
def Keep (t : Fin NINODE → Nat) (s s' : State) : Prop :=
  ∀ e, 0 < t e → (s'.inode e).inum = (s.inode e).inum ∧
    ((s.inode e).valid = true → (s'.inode e).valid = true)

variable {ip : Inode}

section Keep

variable {t t' : Fin NINODE → Nat} {s s' s'' : State} {e : Fin NINODE}

theorem Keep.refl (t : Fin NINODE → Nat) (s : State) : Keep t s s := fun _ _ => ⟨rfl, fun h => h⟩

theorem Keep.trans (h : Keep t s s') (h' : Keep t s' s'') : Keep t s s'' := by
  intro e he
  obtain ⟨h1, h2⟩ := h e he
  obtain ⟨h1', h2'⟩ := h' e he
  exact ⟨h1'.trans h1, fun hv => h2' (h2 hv)⟩

theorem Keep.mono (h : Keep t s s') (ht : ∀ e, 0 < t' e → 0 < t e) : Keep t' s s' :=
  fun e he => h e (ht e he)

theorem Keep.of_hold (h : Keep (hold t e) s s') : Keep t s s' :=
  h.mono fun e' he => he.trans_le (le_hold t e e')

theorem Keep.setIp (h : 0 < t e → ip.inum = (s.inode e).inum ∧
    ((s.inode e).valid = true → ip.valid = true)) :
    Keep t s (s.setIp e ip) := by
  intro e' he'
  by_cases hee : e' = e
  · subst hee
    rw [setIp_inode_self]
    exact h he'
  · rw [setIp_inode_of_ne hee]
    exact ⟨rfl, fun hv => hv⟩

end Keep

variable {sb : Superblock} {al : Known} {s s' : State} {t : Fin NINODE → Nat} {e : Fin NINODE}
  {k : Nat}

theorem Room.congr (h : Room s t k) (hf : s'.file = s.file) : Room s' t k := by
  unfold Room
  simp only [fileRefs_congr hf]
  exact h

theorem Room.mono {l : Nat} (h : Room s t k) (hkl : l ≤ k) : Room s t l := hkl.trans h

theorem Room.hold (h : Room s t (k + 1)) (e : Fin NINODE) : Room s (hold t e) k := by
  have hsub : (Finset.univ.filter fun x => fileRefs s x + t x = 0).erase e ⊆
      Finset.univ.filter fun x => fileRefs s x + Fs.hold t e x = 0 := by
    intro x hx
    simp only [Finset.mem_erase, Finset.mem_filter, Finset.mem_univ, true_and] at hx ⊢
    rw [hold_of_ne t hx.1]
    exact hx.2
  have hcard := Finset.card_le_card hsub
  have herase := Finset.pred_card_le_card_erase (s := Finset.univ.filter
    fun x => fileRefs s x + t x = 0) (a := e)
  unfold Room at *
  omega

theorem Room.free (h : Room s t (k + 1)) (hinv : Inv sb s t) : ∃ e, (s.inode e).ref = 0 := by
  unfold Room at h
  obtain ⟨e, he⟩ := Finset.card_pos.mp (zero_lt_of_lt h)
  refine ⟨e, ?_⟩
  rw [hinv.refs e]
  exact (Finset.mem_filter.mp he).2

theorem setIp_files (e : Fin NINODE) (ip : Inode) : (s.setIp e ip).files sb = s.files sb := rfl

/-- An entry as `ilock` leaves it. -/
def lockedIp (sb : Superblock) (s : State) (e : Fin NINODE) : Inode :=
  { s.inode e with locked := true, valid := true, din := dinodeAt sb s.disk (s.inode e).inum }

/-- What looking up names and dropping references does: some inodes without links may be freed. -/
structure Moved (sb : Superblock) (t : Fin NINODE → Nat) (s s' : State) : Prop where
  calm : Calm s s'
  keep : Keep t s s'
  steps : ∀ x, AbsSteps sb.ninodes (s.abs sb x) (s'.abs sb x)

theorem Moved.refl (sb : Superblock) (t : Fin NINODE → Nat) (s : State) : Moved sb t s s :=
  ⟨.refl s, .refl t s, fun _ => .refl⟩

theorem Moved.trans (h : Moved sb t s s') (h' : Moved sb t s' s'') : Moved sb t s s'' :=
  ⟨h.calm.trans h'.calm, h.keep.trans h'.keep, fun x => (h.steps x).trans (h'.steps x)⟩

theorem Moved.of_hold (h : Moved sb (hold t e) s s') : Moved sb t s s' :=
  ⟨h.calm, h.keep.of_hold, h.steps⟩

theorem Moved.setIp (h : Keep t s (s.setIp e ip)) : Moved sb t s (s.setIp e ip) :=
  ⟨(Frame.setIp ..).calm, h, fun _ => .refl⟩

theorem Moved.dirs (h : Moved sb t s s') (hd : Dirs sb.ninodes al.whole (s.files sb)) :
    Dirs sb.ninodes al.whole (s'.files sb) :=
  (h.steps none).dirs (a := s.abs sb none) hd (zero_lt_of_lt sb.root_lt)

/-- The entry of the inode table `e` that `iget` gives for inode `inum`. -/
structure Got (sb : Superblock) (t : Fin NINODE → Nat) (s : State) (inum : Nat) (e : Fin NINODE)
    (s' : State) (ip : Inode) : Prop where
  eq : s' = s.setIp e ip
  inum : ip.inum = inum
  inv : Inv sb s' (hold t e)
  keep : Keep t s s'
  old : 0 < (s.inode e).ref ∧ ip = { s.inode e with ref := (s.inode e).ref + 1 } ∨
    (s.inode e).ref = 0 ∧ ip.valid = false

variable {inum : Nat}

theorem Got.moved (h : Got sb t s inum e s' ip) : Moved sb t s s' := by
  obtain ⟨rfl, -, -, hkeep, -⟩ := h
  exact .setIp hkeep

/-- The files and the history after `iput` of inode `i`: as before, or with the inode freed. -/
def Reaped (i : Nat) (a a' : Abs) : Prop :=
  a' = a ∨ ∃ v, a.files i = some v ∧ v.nlink = 0 ∧ a' = a.reap i v

theorem Reaped.steps {n : Nat} {a a' : Abs} (h : Reaped i a a') : AbsSteps n a a' := by
  cases h with
  | inl h =>
    rw [h]
    exact .refl
  | inr h =>
    obtain ⟨v, hi, h0, rfl⟩ := h
    exact .single (.reap hi h0)

theorem Reaped.linked {a a' : Abs} (h : Reaped i a a') (j : Nat) (v : View)
    (hj : a.files j = some v) (hv : v.nlink ≠ 0) : a'.files j = some v := by
  cases h with
  | inl h =>
    rw [h]
    exact hj
  | inr h =>
    obtain ⟨w, hi, h0, rfl⟩ := h
    have hji : j ≠ i := by
      rintro rfl
      rw [hi] at hj
      cases hj
      exact hv h0
    exact (update_of_ne hji ..).trans hj

/-- The notes about parents and link counts are as before. -/
def SameNotes (s s' : State) : Prop :=
  s'.hist.deadParent = s.hist.deadParent ∧ s'.hist.linkMax = s.hist.linkMax

theorem SameNotes.refl (s : State) : SameNotes s s := ⟨rfl, rfl⟩

theorem SameNotes.trans (h : SameNotes s s') (h' : SameNotes s' s'') :
    SameNotes s s'' := ⟨h'.1.trans h.1, h'.2.trans h.2⟩

/-- A lookup also leaves every inode alone that has a link. -/
structure Walked (sb : Superblock) (s s' : State) : Prop where
  notes : SameNotes s s'
  linked : ∀ i v, s.files sb i = some v → v.nlink ≠ 0 → s'.files sb i = some v

theorem Walked.refl (sb : Superblock) (s : State) : Walked sb s s := ⟨.refl s, fun _ _ hi _ => hi⟩

theorem Walked.trans (h : Walked sb s s') (h' : Walked sb s' s'') : Walked sb s s'' :=
  ⟨h.notes.trans h'.notes, fun i v hi hv => h'.linked i v (h.linked i v hi hv) hv⟩

theorem Walked.setIp (e : Fin NINODE) (ip : Inode) : Walked sb s (s.setIp e ip) :=
  ⟨.refl s, fun _ _ hi _ => hi⟩

/-- Entry `e` after `ilock`. -/
structure Locked (sb : Superblock) (t : Fin NINODE → Nat) (s : State) (e : Fin NINODE)
    (s' : State) : Prop where
  eq : s' = s.setIp e (lockedIp sb s e)
  inv : Inv sb s' t
  ref : 0 < (s'.inode e).ref
  free : (s.inode e).locked = false

theorem Locked.valid (h : Locked sb t s e s') : (s'.inode e).valid = true := by
  rw [h.eq, setIp_inode_self]
  rfl

theorem Locked.moved (h : Locked sb t s e s') : Moved sb t s s' := by
  rw [h.eq]
  exact .setIp (Keep.setIp fun _ => ⟨rfl, fun _ => rfl⟩)

/-- One reference to entry `e` is given back; this may free the inode. -/
structure Put (sb : Superblock) (t : Fin NINODE → Nat) (s : State) (e : Fin NINODE)
    (s' : State) : Prop where
  inv : Inv sb s' t
  calm : Calm s s'
  other : ∀ e', e' ≠ e → s'.inode e' = s.inode e'
  keep : Keep t s s'
  reaped : ∀ x, Reaped (s.inode e).inum (s.abs sb x) (s'.abs sb x)

theorem Put.moved (h : Put sb t s e s') : Moved sb t s s' :=
  ⟨h.calm, h.keep, fun x => (h.reaped x).steps⟩

theorem Put.walked (h : Put sb t s e s') : Walked sb s s' := by
  refine ⟨?_, (h.reaped none).linked⟩
  cases h.reaped none with
  | inl h => exact ⟨congrArg Abs.dead h, congrArg Abs.maxed h⟩
  | inr h =>
    obtain ⟨v, -, -, h⟩ := h
    exact ⟨congrArg Abs.dead h, congrArg Abs.maxed h⟩

theorem Locked.walked (h : Locked sb t s e s') : Walked sb s s' := by
  rw [h.eq]
  exact .setIp ..

theorem Got.walked (h : Got sb t s inum e s' ip) : Walked sb s s' := by
  rw [h.eq]
  exact .setIp ..

section

variable (h : Inv sb s t)
include h

theorem Inv.incRef (hr : 0 < (s.inode e).ref) :
    Inv sb (s.setIp e { s.inode e with ref := (s.inode e).ref + 1 }) (hold t e) := by
  refine h.recount hr ?_ fun e' he => hold_of_ne t he
  rw [hold_self, h.refs e, Nat.add_assoc]

theorem iget_spec (hlt : inum < sb.ninodes) (hroom : al.room → Room s t 1) :
    Wp (Allowed al) (iget ROOTDEV inum) s fun e s' => ∃ ip, Got sb t s inum e s' ip := by
  unfold iget
  rw [wp_bind, wp_get]
  split
  · next e hfind =>
    have hp := List.find?_some hfind
    simp only [decide_eq_true_eq] at hp
    obtain ⟨hr, -, hi⟩ := hp
    rw [wp_bind, wp_setInode, wp_pure]
    refine ⟨_, rfl, hi, h.incRef hr, ?_, .inl ⟨hr, rfl⟩⟩
    exact Keep.setIp fun _ => ⟨rfl, fun hv => hv⟩
  · next hnone =>
    split
    · next e hfind =>
      have h0 : (s.inode e).ref = 0 := by simpa using List.find?_some hfind
      have hrefs := h.refs e
      rw [wp_bind, wp_setInode, wp_pure]
      refine ⟨_, rfl, rfl, ?_, ?_, .inr ⟨h0, rfl⟩⟩
      · apply h.setIp
        · rw [hold_self]
          change 1 = _
          omega
        · exact fun e' he => hold_of_ne t he
        · exact fun _ => ⟨rfl, hlt⟩
        · intro _ e' he hr' heq
          have hnot := List.find?_eq_none.mp hnone e' (mem_finRange e')
          simp only [decide_eq_true_eq] at hnot
          exact hnot ⟨hr', (h.named e' hr').1, heq⟩
        · intro _ hv
          cases hv
        · intro hpos
          omega
      · apply Keep.setIp
        intro ht
        omega
    · next hfull =>
      intro hr
      obtain ⟨e, he⟩ := (hroom hr).free h
      have hnot := List.find?_eq_none.mp hfull e (mem_finRange e)
      simp only [decide_eq_true_eq] at hnot
      exact hnot he

theorem idup_spec (hr : 0 < (s.inode e).ref) :
    Wp (Allowed al) (idup e) s fun _ s' =>
      s' = s.setIp e { s.inode e with ref := (s.inode e).ref + 1 } ∧
        Inv sb s' (hold t e) ∧ Keep t s s' :=
  ⟨rfl, h.incRef hr, Keep.setIp fun _ => ⟨rfl, fun hv => hv⟩⟩

theorem ilock_spec : Wp (Allowed al) (ilock sb e) s fun _ s' => Locked sb t s e s' := by
  have hinv : 0 < (s.inode e).ref → (dinodeAt sb s.disk (s.inode e).inum).type ≠ 0 →
      Inv sb (s.setIp e (lockedIp sb s e)) t := by
    intro hr htype
    apply h.setIp
    · exact h.refs e
    · exact fun _ _ => rfl
    · exact fun _ => h.named e hr
    · intro _ e' he hr' heq
      exact he (h.uniq e' e hr' hr heq)
    · exact fun _ _ => ⟨rfl, htype⟩
    · intro _ hv
      exact ⟨rfl, by rw [(h.cached e hr hv).1]; rfl⟩
  have hpos : 0 < (s.inode e).ref → 0 < ((s.setIp e (lockedIp sb s e)).inode e).ref := by
    intro hr
    rw [setIp_inode_self]
    exact hr
  simp only [ilock, wp_bind, wp_getInode, wp_ite, wp_panic, wp_throw, wp_setInode, wp_bread,
    wp_pure]
  split_ifs with h1 h2 h3 h4
  · trivial
  · trivial
  · have hr : 0 < (s.inode e).ref := by omega
    obtain ⟨hd, ht⟩ := h.cached e hr h3
    have hs : s.setIp e { s.inode e with locked := true } = s.setIp e (lockedIp sb s e) := by
      unfold lockedIp
      rw [← hd, ← h3]
    rw [hs]
    exact ⟨rfl, hinv hr (hd ▸ ht), hpos hr, by simpa using h2⟩
  · trivial
  · have hr : 0 < (s.inode e).ref := by omega
    exact ⟨rfl, hinv hr h4, hpos hr, by simpa using h2⟩

theorem iunlock_spec :
    Wp (Allowed al) (iunlock e) s fun _ s' =>
      s' = s.setIp e { s.inode e with locked := false } ∧ Inv sb s' t := by
  simp only [iunlock, wp_bind, wp_getInode, wp_ite, wp_panic, wp_setInode]
  split_ifs with h1
  · trivial
  have hr : 0 < (s.inode e).ref := by omega
  exact ⟨trivial, h.recount hr (h.refs e) fun _ _ => rfl⟩

theorem updateDin_spec (hr : 0 < (s.inode e).ref) (hv : (s.inode e).valid)
    (ho : 0 < s.outstanding) {f : Dinode → Dinode} (htype : ∀ ip, (f ip).type = ip.type)
    (hsize : ∀ ip, (f ip).size = ip.size) (haddrs : ∀ ip, (f ip).addrs = ip.addrs) :
    Wp (Allowed al) (setInode e fun ip => { ip with din := f ip.din }) s fun _ s1 =>
      Wp (Allowed al) (iupdate sb e) s1 fun _ s' =>
        Inv sb s' t ∧
        s'.files sb = update (s.files sb) (s.inode e).inum
          (some (view s.disk (f (s.inode e).din))) ∧
        s'.inode = update s.inode e { s.inode e with din := f (s.inode e).din } ∧
        Frame s s' := by
  obtain ⟨hd, -⟩ := h.cached e hr hv
  have hal := h.allocated hr hv
  simp only [wp_setInode, iupdate, wp_bind, wp_getInode, wp_bread, setIp_inode_self, setIp_disk]
  refine (logWrite_spec _ _ (by rwa [setIp_outstanding])).mono ?_
  rintro _ s' ⟨hd', hi', hf'⟩
  have hdisk : s'.disk = putDinode sb s.disk (s.inode e).inum (f (s.inode e).din) := hd'
  have htype' : (f (s.inode e).din).type = (dinodeAt sb s.disk (s.inode e).inum).type := by
    rw [htype, hd]
  obtain ⟨himg1, hfiles1⟩ := h.img.setAttrs hal htype' (by rw [haddrs, hd])
    (by rw [hsize, hd]; exact h.img.bound _ hal) (by rw [hsize, hd]; exact h.img.noHole _ hal)
  obtain ⟨himg2, hfiles2⟩ := himg1.putDinode hal.1 hdisk
  obtain ⟨hinv, hfiles3⟩ := h.change hr hv himg2
    (dinodeAt_putDinode sb s.disk hdisk fun _ _ _ => rfl) hi' hf'.file (htype _)
  refine ⟨hinv, ?_, hi', (Frame.setIp ..).trans hf'⟩
  rw [hfiles3, hfiles2, hfiles1]
  rfl

omit h in
theorem Inv.free (h : Inv sb s (hold t e)) (h1 : (s.inode e).ref = 1) {ip' : Dinode}
    (h0 : ip.ref = 0) (hinode : s'.inode = update s.inode e ip) (hfile : s'.file = s.file)
    (himg : Img sb s'.disk (update (dinodeAt sb s.disk) (s.inode e).inum ip'))
    (hino : ∀ j, j < sb.ninodes →
      dinodeAt sb s'.disk j = update (dinodeAt sb s.disk) (s.inode e).inum ip' j) :
    Inv sb s' t ∧ s'.files sb =
      Fs.files sb s'.disk (update (dinodeAt sb s.disk) (s.inode e).inum ip') := by
  obtain ⟨himg', hfiles'⟩ := himg.congr_ino hino
  have hrefs := h.refs e
  rw [hold_self, h1] at hrefs
  have hdead : ¬ 0 < (s'.inode e).ref := by
    rw [hinode, update_self, h0]
    exact Nat.lt_irrefl 0
  have hne : ∀ {e'}, e' ≠ e → s'.inode e' = s.inode e' := by
    intro e' he
    rw [hinode, update_of_ne he]
  have hlive : ∀ {e'}, 0 < (s'.inode e').ref → e' ≠ e := by
    intro e' hr he
    rw [he] at hr
    exact hdead hr
  refine ⟨⟨himg', ?_, ?_, ?_, ?_, ?_, ?_⟩, hfiles'⟩
  · intro e' hr
    have he := hlive hr
    rw [hne he] at hr ⊢
    exact h.named e' hr
  · intro e1 e2 hr1 hr2 heq
    have he1 := hlive hr1
    have he2 := hlive hr2
    rw [hne he1] at hr1 heq
    rw [hne he2] at hr2 heq
    exact h.uniq e1 e2 hr1 hr2 heq
  · intro e' hr hv
    have he := hlive hr
    rw [hne he] at hr hv ⊢
    rw [hino _ (h.named e' hr).2, update_of_ne]
    · exact h.cached e' hr hv
    · intro heq
      exact he (h.uniq e' e hr (by omega) heq)
  · intro e'
    rw [fileRefs_congr hfile]
    by_cases he : e' = e
    · rw [he, hinode, update_self, h0]
      omega
    · rw [hne he, h.refs e', hold_of_ne t he]
  · rw [hfile]
    exact h.closed
  intro f hf
  rw [hfile] at hf ⊢
  have he : (s.file f).ip ≠ e := by
    intro he
    have := fileRefs_pos (.inl hf)
    rw [he] at this
    omega
  rw [hne he]
  exact h.opened f hf

theorem entriesAt_eq (hr : 0 < (s.inode e).ref) (hv : (s.inode e).valid) :
    entriesAt s.disk (s.inode e).din = (view s.disk (s.inode e).din).entries := by
  apply map_congr_left
  intro k hk
  have hk : k < (s.inode e).din.size.toNat / 16 := List.mem_range.mp hk
  have hd := (h.cached e hr hv).1
  have hne : blockAt s.disk (s.inode e).din (k / 64) ≠ 0 := by
    rw [hd] at hk ⊢
    apply h.img.noHole _ (h.allocated hr hv)
    simp only [BSIZE]
    omega
  simp only [entryAt, View.entry, view, if_neg hne]

end

def Dinode.freed (ip : Dinode) : Dinode := { ip.empty with type := 0 }

theorem slot_freed (d : Disk) (ip : Dinode) (k : Nat) : slot d ip.freed k = 0 :=
  (slot_congr rfl (fun _ => rfl) k).trans (slot_empty d ip k)

theorem Img.freed {d : Disk} {ino : Nat → Dinode} {ip : Dinode}
    (h : Img sb d (update ino i ip.empty)) :
    Img sb d (update ino i ip.freed) ∧ Fs.files sb d (update ino i ip.freed) =
        update (Fs.files sb d (update ino i ip.empty)) i none := by
  have hnone : ∀ k, place sb d (update ino i ip.empty) (i, k) = none := by
    intro k
    unfold place
    rw [update_self, slot_empty, if_neg fun hh => hh.2 rfl]
  obtain ⟨himg, hfiles⟩ := h.replace hnone (slot_freed d ip) rfl
  rw [update_idem] at himg hfiles
  rw [if_neg fun hh => hh.2 rfl] at hfiles
  exact ⟨himg, hfiles⟩

section

variable (h : Inv sb s (hold t e)) (h1 : (s.inode e).ref = 1) (hv : (s.inode e).valid)
include h h1 hv

theorem freeInode_spec (ho : 0 < s.outstanding) :
    Wp (Allowed al) (do
        itrunc sb e
        setInode e fun ip => { ip with din.type := 0 }
        iupdate sb e
        setInode e fun ip => { ip with valid := false }) s fun _ s1 =>
      Wp (Allowed al) (setInode e fun ip => { ip with ref := ip.ref - 1 }) s1 fun _ s' =>
        Inv sb s' t ∧ Frame s s' ∧ (∀ e', e' ≠ e → s'.inode e' = s.inode e') ∧
        s'.files sb = update (s.files sb) (s.inode e).inum none := by
  have hr : 0 < (s.inode e).ref := by omega
  obtain ⟨hd, -⟩ := h.cached e hr hv
  have hal := h.allocated hr hv
  refine (itrunc_spec h.img hal hd rfl ho).bind ?_
  rintro _ s1 ⟨himg1, hfiles1, hi1, hino1, hf1⟩
  have hent1 : s1.inode e =
      { s.inode e with din := (dinodeAt sb s.disk (s.inode e).inum).empty } := by
    rw [hi1, update_self]
  have ho1 := hf1.pos ho
  simp only [iupdate, wp_bind, wp_setInode, wp_getInode, wp_bread, setIp_inode_self, setIp_disk,
    setIp_setIp]
  refine (logWrite_spec _ _ (by rwa [setIp_outstanding])).mono ?_
  rintro _ s2 ⟨hd2, hi2, hf2⟩
  rw [hent1] at hd2 hi2
  have hdisk : s2.disk = putDinode sb s1.disk (s.inode e).inum
      (dinodeAt sb s.disk (s.inode e).inum).freed := hd2
  obtain ⟨himg2, hfiles2⟩ := himg1.freed
  obtain ⟨himg3, hfiles3⟩ := himg2.putDinode hal.1 hdisk
  have hent2 : (s2.inode e).ref - 1 = 0 := by
    rw [hi2, setIp_inode_self]
    change (s.inode e).ref - 1 = 0
    omega
  have hne : ∀ ip, (s2.setIp e ip).inode = update s.inode e ip := by
    intro ip
    rw [State.setIp, hi2, State.setIp, hi1, update_idem, update_idem]
  have hino := dinodeAt_putDinode sb s.disk hdisk fun j hj hji =>
    (hino1 j hj).trans (update_of_ne hji ..)
  have hframe : ∀ ip, Frame s (s2.setIp e ip) := fun ip =>
    (hf1.trans (.setIp ..)).trans (hf2.trans (.setIp s2 e ip))
  have hfree : ∀ ip, ip.ref = 0 → Inv sb (s2.setIp e ip) t ∧
      (s2.setIp e ip).files sb = update (s.files sb) (s.inode e).inum none := by
    intro ip h0
    obtain ⟨hinv, hfiles⟩ := h.free h1 h0 (hne ip) (hframe ip).file himg3 hino
    refine ⟨hinv, hfiles.trans ?_⟩
    rw [setIp_disk, hfiles3, hfiles2, hfiles1, update_idem]
    rfl
  refine ⟨(hfree _ hent2).1, hframe _, ?_, (hfree _ hent2).2⟩
  intro e' he
  rw [hne, update_of_ne he]

theorem ifree_spec (h0 : (s.inode e).din.nlink = 0) (ho : 0 < s.outstanding) :
    Wp (Allowed al) (ifree sb e) s fun _ s1 =>
      Wp (Allowed al) (setInode e fun ip => { ip with ref := ip.ref - 1 }) s1 fun _ s' =>
        Inv sb s' t ∧ Calm s s' ∧ (∀ e', e' ≠ e → s'.inode e' = s.inode e') ∧
        ∀ x, Reaped (s.inode e).inum (s.abs sb x) (s'.abs sb x) := by
  have hr : 0 < (s.inode e).ref := by omega
  unfold ifree
  rw [wp_bind, wp_get]
  by_cases hl : (s.inode e).locked = true
  · rw [if_pos hl]
    trivial
  rw [if_neg hl, wp_bind, wp_note]
  generalize hs0 : ({ s with hist := _ } : State) = s0
  have hfields : s0.disk = s.disk ∧ s0.inode = s.inode ∧ s0.file = s.file ∧ s0.proc = s.proc ∧
      s0.outstanding = s.outstanding ∧ s0.hist = if (s.inode e).din.type = T_DIR then
        { s.hist with freedDirs := s.hist.freedDirs ++ [entriesAt s.disk (s.inode e).din] }
      else s.hist := by
    rw [← hs0]
    exact ⟨rfl, rfl, rfl, rfl, rfl, rfl⟩
  obtain ⟨hd0, hi0, hf0, hp0, ho0, hh0⟩ := hfields
  have h' := h.congr hd0 hi0 hf0
  refine (freeInode_spec h' (by rwa [hi0]) (by rwa [hi0]) (by rwa [ho0])).mono ?_
  intro _ s1 hs1
  refine hs1.mono ?_
  rintro _ s' ⟨hinv, hframe, hne, hfiles⟩
  rw [hi0] at hfiles hne
  have hfiles0 : s0.files sb = s.files sb := by
    unfold State.files
    rw [hd0]
  refine ⟨hinv, ⟨hframe.file.trans hf0, hframe.proc.trans hp0, hframe.outstanding.trans ho0, ?_,
    ?_⟩, hne, fun x => .inr ⟨view s.disk (s.inode e).din, h.files_eq hr hv, h0, ?_⟩⟩
  · rw [hframe.readAllocs, hh0]
    split_ifs <;> rfl
  · rw [hframe.commits, hh0]
    split_ifs <;> rfl
  have htype : (view s.disk (s.inode e).din).type = (s.inode e).din.type := rfl
  unfold State.abs Abs.reap
  rw [hfiles, hfiles0, hframe.freedDirs, hframe.deadParent, hframe.linkMax, hh0,
    entriesAt_eq h hr hv, htype]
  by_cases hdir : (s.inode e).din.type = T_DIR
  · rw [if_pos hdir, if_pos hdir]
  · rw [if_neg hdir, if_neg hdir]

end

/-- `iput` gives back one reference. -/
theorem iput_spec (h : Inv sb s (hold t e)) (ho : 0 < s.outstanding) :
    Wp (Allowed al) (iput sb e) s fun _ s' => Put sb t s e s' := by
  have hrefs := h.refs e
  rw [hold_self] at hrefs
  rw [iput, wp_bind, wp_get, wp_bind, wp_noteUnless (decide_eq_true ho)]
  simp only [wp_bind, wp_getInode, wp_ite]
  split_ifs with hc
  · obtain ⟨h1, hv, h0⟩ := hc
    refine (ifree_spec h h1 hv h0 ho).mono ?_
    intro _ s1 hs1
    refine hs1.mono ?_
    rintro _ s' ⟨hinv, hcalm, hne, hreap⟩
    refine ⟨hinv, hcalm, hne, ?_, hreap⟩
    intro e' ht
    have he : e' ≠ e := by
      intro he
      rw [he] at ht
      omega
    rw [hne e' he]
    exact ⟨rfl, fun hv => hv⟩
  · rw [wp_setInode]
    have hr : 0 < (s.inode e).ref := by omega
    refine ⟨?_, (Frame.setIp ..).calm, fun e' he => setIp_inode_of_ne he _,
      Keep.setIp fun _ => ⟨rfl, fun hv => hv⟩, fun x => .inl rfl⟩
    exact h.recount hr (by omega) fun e' he => (hold_of_ne t he).symm

theorem iunlockput_spec (h : Inv sb s (hold t e)) (ho : 0 < s.outstanding) :
    Wp (Allowed al) (iunlockput sb e) s fun _ s' => Put sb t s e s' := by
  rw [iunlockput]
  refine (iunlock_spec h).bind ?_
  rintro _ s1 ⟨hs1, h1⟩
  subst hs1
  refine (iput_spec h1 ho).mono ?_
  rintro _ s' ⟨hinv, hcalm, hne, hkeep, hreap⟩
  rw [setIp_inode_self] at hreap
  refine ⟨hinv, (Frame.setIp ..).calm.trans hcalm, ?_, ?_, hreap⟩
  · intro e' he
    rw [hne e' he, setIp_inode_of_ne he]
  · refine Keep.trans (Keep.setIp ?_) hkeep
    exact fun _ => ⟨rfl, fun hv => hv⟩

variable {type : Int16}

theorem Inv.ialloc (h : Inv sb s t) (hi : i < sb.ninodes) (h0 : (dinodeAt sb s.disk i).type = 0)
    (htype : type ≠ 0) (hd : s'.disk = putDinode sb s.disk i { Dinode.zero with type := type })
    (hinode : s'.inode = s.inode) (hfile : s'.file = s.file) :
    Inv sb s' t ∧ s'.files sb =
      update (s.files sb) i (some ⟨type, 0, 0, 0, 0, fun _ _ => 0⟩) := by
  have hnone : ∀ k, place sb s.disk (dinodeAt sb s.disk) (i, k) = none := by
    intro k
    unfold place
    rw [if_neg fun hh => hh.1.2 h0]
  have hzero : ∀ k, slot s.disk { Dinode.zero with type := type } k = 0 := fun k =>
    slot_empty s.disk { Dinode.zero with type := type } k
  have hview : view s.disk { Dinode.zero with type := type } = ⟨type, 0, 0, 0, 0, fun _ _ => 0⟩ :=
    view_empty s.disk s.disk { Dinode.zero with type := type }
  obtain ⟨himg1, hfiles1⟩ := h.img.replace hnone hzero rfl
  rw [if_pos ⟨hi, htype⟩, hview] at hfiles1
  obtain ⟨himg2, hfiles2⟩ := himg1.putDinode hi hd
  have hino := dinodeAt_putDinode sb s.disk hd fun _ _ _ => rfl
  obtain ⟨himg3, hfiles3⟩ := himg2.congr_ino hino
  refine ⟨⟨himg3, ?_, ?_, ?_, ?_, ?_, ?_⟩, ?_⟩
  · rw [hinode]
    exact h.named
  · rw [hinode]
    exact h.uniq
  · intro e hr hv
    rw [hinode] at hr hv ⊢
    obtain ⟨hdin, hty⟩ := h.cached e hr hv
    refine ⟨?_, hty⟩
    rw [hino _ (h.named e hr).2, update_of_ne]
    · exact hdin
    · intro heq
      rw [heq] at hdin
      exact hty (hdin ▸ h0)
  · intro e
    rw [hinode, fileRefs_congr hfile]
    exact h.refs e
  · rw [hfile]
    exact h.closed
  · rw [hfile, hinode]
    exact h.opened
  · exact (hfiles3.trans hfiles2).trans hfiles1

/-- `ialloc` has taken a free inode into entry `e`, if there was one. -/
def Ialloced (sb : Superblock) (t : Fin NINODE → Nat) (type : Int16) (s : State) :
    Option (Fin NINODE) → State → Prop
  | none, s' => s' = s
  | some e, s' => Inv sb s' (hold t e) ∧ Frame s s' ∧ Keep t s s' ∧
      ∃ i, (s'.inode e).inum = i ∧ 0 < i ∧ i < sb.ninodes ∧ s.files sb i = none ∧
        s'.files sb = update (s.files sb) i (some ⟨type, 0, 0, 0, 0, fun _ _ => 0⟩)

variable (h : Inv sb s t) (ho : 0 < s.outstanding) (htype : type ≠ 0)
include h ho htype

theorem iallocFrom_spec (n inum : Nat) (hpos : 0 < inum) (hle : inum + n ≤ sb.ninodes)
    (hroom : al.room → Room s t 1) :
    Wp (Allowed al) (iallocFrom sb ROOTDEV type n inum) s (Ialloced sb t type s) := by
  induction n generalizing inum with
  | zero => rfl
  | succ n ih =>
    simp only [iallocFrom, wp_bind, wp_bread, wp_ite]
    split_ifs with h0
    · refine (logWrite_spec _ _ ho).mono ?_
      rintro _ s1 ⟨hd1, hi1, hf1⟩
      have hlt : inum < sb.ninodes := by omega
      obtain ⟨hinv1, hfiles1⟩ := h.ialloc hlt h0 htype hd1 hi1 hf1.file
      refine (iget_spec hinv1 hlt fun hr => (hroom hr).congr hf1.file).mono ?_
      rintro e s' ⟨ip, hs', hnum, hinv, hkeep, _⟩
      subst hs'
      refine ⟨hinv, hf1.trans (.setIp ..), ?_, inum, by rw [setIp_inode_self, hnum], hpos, hlt,
        if_neg fun hh => hh.2 h0, hfiles1⟩
      intro e' ht
      rw [← hi1]
      exact hkeep e' ht
    · exact ih (inum + 1) (by omega) (by omega)

theorem ialloc_spec (hroom : al.room → Room s t 1) :
    Wp (Allowed al) (ialloc sb ROOTDEV type) s (Ialloced sb t type s) :=
  iallocFrom_spec h ho htype _ _ Nat.one_pos
    (by have := sb.root_lt; simp only [ROOTINO] at this; omega) hroom

end Xv6.Fs
