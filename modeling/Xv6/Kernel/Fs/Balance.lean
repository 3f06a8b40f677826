import Xv6.Kernel.Fs.CallSpec

namespace Xv6.Fs

open ByteCodec Hoare List

/-- An entry of the inode table but for the copy of the disk inode, of which only the type stays. -/
def Inode.base (x : Inode) : Inode := { x with din := { Dinode.zero with type := x.din.type } }

theorem Inode.base_inj {x y : Inode} (h : x.base = y.base) :
    x.dev = y.dev ∧ x.inum = y.inum ∧ x.ref = y.ref ∧ x.locked = y.locked ∧ x.valid = y.valid ∧
      x.din.type = y.din.type := by
  simp only [Inode.base, Inode.mk.injEq, Dinode.mk.injEq] at h
  obtain ⟨hdev, hinum, href, hlocked, hvalid, htype, -⟩ := h
  exact ⟨hdev, hinum, href, hlocked, hvalid, htype⟩

/-- What reading and writing blocks leaves alone: everything but the disk, the copies of the disk
inodes and the counts of blocks. -/
structure Still (s s' : State) : Prop where
  file : s'.file = s.file
  proc : s'.proc = s.proc
  pipe : s'.pipe = s.pipe
  npipe : s'.npipe = s.npipe
  outstanding : s'.outstanding = s.outstanding
  unbracketed : s'.hist.unbracketed = s.hist.unbracketed
  entry : ∀ e, (s'.inode e).base = (s.inode e).base

instance : IsPreorder State Still where
  refl _ := ⟨rfl, rfl, rfl, rfl, rfl, rfl, fun _ => rfl⟩
  trans _ _ _ h h' := ⟨h'.file.trans h.file, h'.proc.trans h.proc, h'.pipe.trans h.pipe,
    h'.npipe.trans h.npipe, h'.outstanding.trans h.outstanding,
    h'.unbracketed.trans h.unbracketed, fun e => (h'.entry e).trans (h.entry e)⟩

variable {s s' : State}

theorem Still.valid (h : Still s s') (e : Fin NINODE) :
    (s'.inode e).valid = (s.inode e).valid := (Inode.base_inj (h.entry e)).2.2.2.2.1

section Still

variable {sb : Superblock} {e : Fin NINODE}

theorem panic_still {α : Type} (p : Panic) : Keeps Still (panic p : FsM α) := .throw _

theorem getInode_still (e : Fin NINODE) : Keeps Still (getInode e) := .bind .get fun _ => .pure _

theorem bread_still (b : Nat) : Keeps Still (bread b) := .bind .get fun _ => .pure _

theorem note_still {g : History → History} (h : ∀ x, (g x).unbracketed = x.unbracketed) :
    Keeps Still (note g) :=
  .modify fun s => ⟨rfl, rfl, rfl, rfl, rfl, h s.hist, fun _ => rfl⟩

theorem setDin_still (e : Fin NINODE) {g : Inode → Inode}
    (h : ∀ ip, (g ip).base = ip.base) : Keeps Still (setInode e g) := by
  refine .modify fun s => ⟨rfl, rfl, rfl, rfl, rfl, rfl, fun e' => ?_⟩
  by_cases he : e' = e
  · subst he
    simp only [Function.update_self, h]
  · simp only [Function.update_of_ne he]

theorem logWrite_still (b : Nat) (data : Block) : Keeps Still (logWrite sb b data) := by
  refine ⟨fun s => ?_⟩
  simp only [logWrite, wp_bind, wp_get, wp_ite, wp_panic, wp_set]
  split_ifs
  · exact ⟨rfl, rfl, rfl, rfl, rfl, rfl, fun _ => rfl⟩

theorem ballocFrom_still (n b : Nat) : Keeps Still (ballocFrom sb n b) := by
  induction n generalizing b with
  | zero => exact .pure _
  | succ n ih =>
    refine .ite (.bind (bread_still _) fun data => ?_) (.pure _)
    split
    · exact .bind (logWrite_still ..) fun _ => .bind (logWrite_still ..) fun _ =>
        .bind (note_still fun _ => rfl) fun _ => .pure _
    · exact ih _

theorem balloc_still : Keeps Still (balloc sb) := ballocFrom_still _ _

theorem bfree_still (b : Nat) : Keeps Still (bfree sb b) :=
  .bind (bread_still _) fun _ => .ite (logWrite_still ..) (panic_still _)

section

variable (e : Fin NINODE)

theorem iupdate_still : Keeps Still (iupdate sb e) :=
  .bind (getInode_still e) fun _ => .bind (bread_still _) fun _ => logWrite_still ..

theorem setAddr_still (k : Fin (NDIRECT + 1)) (a : UInt32) :
    Keeps Still (setAddr e k a) := setDin_still e fun _ => rfl

theorem bmapSlot_still (k : Fin (NDIRECT + 1)) : Keeps Still (bmapSlot sb e k) :=
  .bind (getInode_still e) fun _ =>
    .ite (.bind balloc_still fun _ => .ite (.pure _) (.bind (setAddr_still ..) fun _ => .pure _))
      (.pure _)

theorem bmap_still (bn : Nat) : Keeps Still (bmap sb e bn) := by
  unfold bmap
  split
  · exact bmapSlot_still ..
  · refine .ite (.bind (bmapSlot_still ..) fun ind => .ite (.pure _) ?_) (panic_still _)
    refine .bind (bread_still _) fun a => .ite (.bind balloc_still fun addr => ?_) (.pure _)
    exact .ite (.pure _) (.bind (logWrite_still ..) fun _ => .pure _)

theorem itruncDirect_still (ks : List (Fin (NDIRECT + 1))) :
    Keeps Still (itruncDirect sb e ks) := by
  induction ks with
  | nil => exact .pure _
  | cons k ks ih =>
    exact .bind (getInode_still e) fun _ =>
      .ite ih (.bind (bfree_still _) fun _ => .bind (setAddr_still ..) fun _ => ih)

theorem itruncEntries_still (a : Block) (js : List Nat) : Keeps Still (itruncEntries sb a js) := by
  induction js with
  | nil => exact .pure _
  | cons j js ih => exact .ite ih (.bind (bfree_still _) fun _ => ih)

theorem itruncIndirect_still : Keeps Still (itruncIndirect sb e) :=
  .bind (getInode_still e) fun _ =>
    .ite (.pure _) (.bind (bread_still _) fun _ => .bind (itruncEntries_still ..) fun _ =>
      .bind (bfree_still _) fun _ => setAddr_still ..)

theorem itrunc_still : Keeps Still (itrunc sb e) :=
  .bind (itruncDirect_still ..) fun _ => .bind (itruncIndirect_still e) fun _ =>
    .bind (setDin_still e fun _ => rfl) fun _ => iupdate_still e

theorem readiLoop_still (ok : Nat → Nat → Bool) (n fuel off tot : Nat) (acc : List UInt8) :
    Keeps Still (readiLoop sb e ok n fuel off tot acc) := by
  induction fuel generalizing off tot acc with
  | zero => exact .ite (.throw _) (.pure _)
  | succ fuel ih =>
    refine .ite (.bind .get fun before => .bind (bmap_still ..) fun addr => ?_) (.pure _)
    refine .bind (note_still fun _ => rfl) fun _ => .ite (.pure _) ?_
    exact .bind (bread_still _) fun data => .ite (ih _ _ _) (.pure _)

theorem readi_still (ok : Nat → Nat → Bool) (off n : Nat) : Keeps Still (readi sb e ok off n) :=
  .bind (getInode_still e) fun _ => .ite (.pure _) (readiLoop_still ..)

theorem writeiLoop_still (src : Source) (n fuel off tot : Nat) :
    Keeps Still (writeiLoop sb e src n fuel off tot) := by
  induction fuel generalizing off tot with
  | zero => exact .ite (.throw _) (.pure _)
  | succ fuel ih =>
    refine .ite (.bind (bmap_still ..) fun addr => .ite (.pure _) ?_) (.pure _)
    refine .bind (bread_still _) fun data => .ite (.bind (.modify fun s => ?_) fun _ => .pure _) ?_
    · exact ⟨rfl, rfl, rfl, rfl, rfl, rfl, fun _ => rfl⟩
    · exact .bind (logWrite_still ..) fun _ => ih _ _

theorem writei_still (src : Source) (off n : Nat) : Keeps Still (writei sb e src off n) := by
  refine .bind (getInode_still e) fun _ => .ite (.pure _) (.ite (.pure _) ?_)
  refine .bind (writeiLoop_still ..) fun r => .bind (setDin_still e fun ip => ?_) fun _ => ?_
  · split_ifs <;> rfl
  · exact .bind (iupdate_still e) fun _ => .pure _

end

theorem emptyFrom_still (dp : Fin NINODE) (fuel off : Nat) :
    Keeps Still (emptyFrom sb dp fuel off) := by
  induction fuel generalizing off with
  | zero => exact .bind (getInode_still dp) fun _ => .ite (.throw _) (.pure _)
  | succ fuel ih =>
    refine .bind (getInode_still dp) fun _ => .ite (.bind (readi_still ..) fun r => ?_) (.pure _)
    exact .ite (panic_still _) (.ite (.pure _) (ih _))

theorem isdiremptyFrom_still (dp : Fin NINODE) (fuel off : Nat) :
    Keeps Still (isdiremptyFrom sb dp fuel off) := by
  induction fuel generalizing off with
  | zero => exact .bind (getInode_still dp) fun _ => .ite (.throw _) (.pure _)
  | succ fuel ih =>
    refine .bind (getInode_still dp) fun _ => .ite (.bind (readi_still ..) fun r => ?_) (.pure _)
    exact .ite (panic_still _) (.ite (.pure _) (ih _))

theorem isdirempty_still (dp : Fin NINODE) : Keeps Still (isdirempty sb dp) :=
  .bind (getInode_still dp) fun _ => isdiremptyFrom_still ..

theorem setNlink_still (e : Fin NINODE) (g : Int16 → Int16) : Keeps Still (setNlink e g) :=
  setDin_still e fun _ => rfl

theorem incNlink_still (e : Fin NINODE) : Keeps Still (incNlink e) :=
  .bind (getInode_still e) fun _ => .bind (note_still fun _ => rfl) fun _ => setNlink_still ..

theorem noteParent_still (dp : Fin NINODE) : Keeps Still (noteParent dp) :=
  .bind (getInode_still dp) fun _ => note_still fun _ => rfl

theorem readAll_still (e : Fin NINODE) (reads : List (Nat × Nat)) :
    Keeps Still (readAll sb e reads) := by
  induction reads with
  | nil => exact .pure _
  | cons x reads ih => exact .bind (readi_still ..) fun _ => ih

end Still

def File.base (x : File) : File := { x with off := 0 }

/-- What all of the inode layer leaves alone. -/
structure Quiet (s s' : State) : Prop where
  file : ∀ f, (s'.file f).base = (s.file f).base
  proc : s'.proc = s.proc
  pipe : s'.pipe = s.pipe
  npipe : s'.npipe = s.npipe

theorem Quiet.refl (s : State) : Quiet s s := ⟨fun _ => rfl, rfl, rfl, rfl⟩

theorem File.refTo_base (x : File) (e : Fin NINODE) : x.base.refTo e = x.refTo e := rfl

theorem Quiet.fileRefs (h : Quiet s s') : fileRefs s' = Fs.fileRefs s := by
  funext e
  unfold Fs.fileRefs
  apply Finset.sum_congr rfl
  intro f _
  rw [← File.refTo_base, h.file f, File.refTo_base]

theorem Quiet.same (h : Quiet s s') (f : Fin NFILE) :
    (s'.file f).ref = (s.file f).ref ∧ (s'.file f).type = (s.file f).type ∧
      (s'.file f).pipe = (s.file f).pipe ∧ (s'.file f).ip = (s.file f).ip := by
  have hf := h.file f
  simp only [File.base, File.mk.injEq] at hf
  obtain ⟨htype, href, -, -, hpipe, hip, -, -⟩ := hf
  exact ⟨href, htype, hpipe, hip⟩

/-- The type of the inode of entry `e`, as the next `ilock` finds it. -/
def typeOf (sb : Superblock) (s : State) (e : Fin NINODE) : Int16 :=
  if (s.inode e).valid = true then (s.inode e).din.type
  else (dinodeAt sb s.disk (s.inode e).inum).type

variable {sb : Superblock} {e : Fin NINODE}

theorem typeOf_valid
    (h : (s.inode e).valid) : typeOf sb s e = (s.inode e).din.type := if_pos h

/-- Entry `e` is still that of the inode it was in `s0`, and the inode has the type it had. -/
structure Kept (sb : Superblock) (s0 s : State) (e : Fin NINODE) : Prop where
  inum : (s.inode e).inum = (s0.inode e).inum
  valid : (s0.inode e).valid = true → (s.inode e).valid = true
  type : (s.inode e).valid = true → (s.inode e).din.type = typeOf sb s0 e

theorem Kept.refl (sb : Superblock) (s : State) (e : Fin NINODE) : Kept sb s s e :=
  ⟨rfl, fun h => h, fun h => (typeOf_valid h).symm⟩

theorem Kept.congr {s0 : State} (h : Kept sb s0 s e)
    (hinum : (s'.inode e).inum = (s.inode e).inum) (hvalid : (s'.inode e).valid = (s.inode e).valid)
    (htype : (s'.inode e).din.type = (s.inode e).din.type) : Kept sb s0 s' e where
  inum := hinum.trans h.inum
  valid hv := hvalid.trans (h.valid hv)
  type hv := htype.trans (h.type (hvalid.symm.trans hv))

/-- Entry `e` is that of the same inode in both states, and the inode has the same type. -/
def SameInode (sb : Superblock) (s s' : State) (e : Fin NINODE) : Prop :=
  (s'.inode e).inum = (s.inode e).inum ∧ typeOf sb s' e = typeOf sb s e

theorem SameInode.trans {s'' : State}
    (h : SameInode sb s s' e) (h' : SameInode sb s' s'' e) : SameInode sb s s'' e :=
  ⟨h'.1.trans h.1, h'.2.trans h.2⟩

theorem SameInode.of_eq (hi : s'.inode = s.inode)
    (hd : s'.disk = s.disk) (e : Fin NINODE) : SameInode sb s s' e := by
  unfold SameInode typeOf
  rw [hi, hd]
  exact ⟨rfl, rfl⟩

/-- Nothing was written since `s0`, and at most one entry of the inode table is in use, which is
that of the root directory and has not been read. This is how the kernel boots. -/
structure Untouched (s0 s : State) : Prop where
  disk : s.disk = s0.disk
  only : ∃ e0, (s.inode e0).dev = ROOTDEV ∧ (s.inode e0).inum = ROOTINO ∧
    (s.inode e0).valid = false ∧ ∀ e, 0 < (s.inode e).ref → e = e0

/-- The references and locks the kernel holds at some point of a system call that has not touched
the open files and processes of `s0`: `t` references from processes, those in `R` held by the call
itself, the locks in `L`, and `n` operations begun. -/
structure Books (sb : Superblock) (s0 : State) (t : Fin NINODE → Nat) (n : Nat) (s : State)
    (R L : List (Fin NINODE)) : Prop where
  quiet : Quiet s0 s
  outstanding : s.outstanding = n
  bracketed : s.hist.unbracketed = false
  refs : ∀ e, (s.inode e).ref = fileRefs s0 e + t e + R.count e
  locks : ∀ e, (s.inode e).locked = true ↔ e ∈ L
  nodup : L.Nodup
  held : ∀ e ∈ L, (s.inode e).valid = true ∧ 0 < fileRefs s0 e + t e + R.count e
  kept : ∀ e, 0 < fileRefs s0 e + t e → Kept sb s0 s e
  ready : (∀ e, 0 < fileRefs s0 e + t e → (s.inode e).valid = true) ∨ L = [] ∧ Untouched s0 s

namespace Books

variable {sb : Superblock} {s0 s s' : State} {t : Fin NINODE → Nat} {n : Nat}
  {R R' L L' : List (Fin NINODE)} {e e' l : Fin NINODE}

theorem valid (h : Books sb s0 t n s R (l :: L)) (he : 0 < fileRefs s0 e + t e) :
    (s.inode e).valid = true := by
  cases h.ready with
  | inl hr => exact hr e he
  | inr hr => cases hr.1

theorem same (h : Books sb s0 t n s R L) (he : 0 < fileRefs s0 e + t e) : SameInode sb s0 s e := by
  have hk := h.kept e he
  refine ⟨hk.inum, ?_⟩
  cases h.ready with
  | inl hr => rw [typeOf_valid (hr e he), hk.type (hr e he)]
  | inr hr =>
    by_cases hv : (s.inode e).valid = true
    · rw [typeOf_valid hv, hk.type hv]
    · have hv0 : ¬ (s0.inode e).valid = true := fun hv0 => hv (hk.valid hv0)
      rw [typeOf, typeOf, if_neg hv, if_neg hv0, hr.2.disk, hk.inum]

theorem still (h : Books sb s0 t n s R L) (hs : Still s s')
    (hr : ∀ e, 0 < fileRefs s0 e + t e → (s.inode e).valid = true) : Books sb s0 t n s' R L where
  quiet := by
    refine ⟨fun f => ?_, hs.proc.trans h.quiet.proc, hs.pipe.trans h.quiet.pipe,
      hs.npipe.trans h.quiet.npipe⟩
    rw [hs.file]
    exact h.quiet.file f
  outstanding := hs.outstanding.trans h.outstanding
  bracketed := hs.unbracketed.trans h.bracketed
  refs e := (Inode.base_inj (hs.entry e)).2.2.1.trans (h.refs e)
  locks e := by
    rw [(Inode.base_inj (hs.entry e)).2.2.2.1]
    exact h.locks e
  nodup := h.nodup
  held e he := by
    rw [hs.valid]
    exact h.held e he
  kept e he := by
    obtain ⟨-, hinum, -, -, hvalid, htype⟩ := Inode.base_inj (hs.entry e)
    exact (h.kept e he).congr hinum hvalid htype
  ready := .inl fun e he => (hs.valid e).trans (hr e he)

theorem wp {α : Type} {x : FsM α} (h : Books sb s0 t n s R (l :: L)) (hx : Keeps Still x) :
    Wp Any x s fun _ s' => Books sb s0 t n s' R (l :: L) :=
  (hx.wp s).mono fun _ _ hs => h.still hs fun _ he => h.valid he

theorem perm (h : Books sb s0 t n s R L) (hR : R.Perm R') (hL : L.Perm L') :
    Books sb s0 t n s R' L' :=
  { h with
    refs e := by
      rw [← hR.count_eq]
      exact h.refs e
    locks e := (h.locks e).trans hL.mem_iff
    nodup := hL.nodup_iff.mp h.nodup
    held e he := by
      rw [← hR.count_eq]
      exact h.held e (hL.mem_iff.mpr he)
    ready := by
      refine h.ready.imp_right fun hr => ⟨?_, hr.2⟩
      rw [hr.1] at hL
      exact List.nil_perm.mp hL }

theorem swapRefs (h : Books sb s0 t n s (e :: e' :: R) L) : Books sb s0 t n s (e' :: e :: R) L :=
  h.perm (.swap ..) (.refl _)

theorem swapLocks (h : Books sb s0 t n s R (e :: e' :: L)) : Books sb s0 t n s R (e' :: e :: L) :=
  h.perm (.refl _) (.swap ..)

theorem hold_count (t : Fin NINODE → Nat) (R : List (Fin NINODE)) (e e' : Fin NINODE) :
    hold t e e' + R.count e' = t e' + (e :: R).count e' := by
  by_cases he : e' = e
  · subst he
    rw [hold_self, count_cons_self]
    omega
  · rw [hold_of_ne t he, count_cons_of_ne (Ne.symm he)]

theorem take (h : Books sb s0 (hold t e) n s R L) : Books sb s0 t n s (e :: R) L := { h with
    refs e' := by
      have := hold_count t R e e'
      have := h.refs e'
      omega
    held e' he := by
      have := hold_count t R e e'
      have := h.held e' he
      exact ⟨this.1, by omega⟩
    kept e' he := by
      have := le_hold t e e'
      exact h.kept e' (by omega)
    ready := by
      refine h.ready.imp_left fun hr e' he => ?_
      have := le_hold t e e'
      exact hr e' (by omega) }

theorem rebase (h : Books sb s0 t n s R L) : Books sb s t n s R L := { h with
    quiet := .refl s
    refs e := by
      rw [h.quiet.fileRefs]
      exact h.refs e
    held := by
      rw [h.quiet.fileRefs]
      exact h.held
    kept e _ := .refl sb s e
    ready := by
      rw [h.quiet.fileRefs]
      exact h.ready.imp_right fun hr => ⟨hr.1, rfl, hr.2.only⟩ }

theorem give (h : Books sb s t n s (e :: R) L) (he : e ∈ L ∨ 0 < fileRefs s e + t e) :
    Books sb s (hold t e) n s R L :=
  { h with
    refs e' := by
      have := hold_count t R e e'
      have := h.refs e'
      omega
    held e' he' := by
      have := hold_count t R e e'
      have := h.held e' he'
      exact ⟨this.1, by omega⟩
    kept e' _ := .refl sb s e'
    ready := by
      refine h.ready.imp_left fun hr e' he' => ?_
      by_cases hee : e' = e
      · subst hee
        cases he with
        | inl hmem => exact (h.held e' hmem).1
        | inr hpos => exact hr e' hpos
      · rw [hold_of_ne t hee] at he'
        exact hr e' he' }

section

variable (h : Books sb s0 t n s R L)
include h

theorem setIp {ip : Inode} (href : ip.ref + R.count e = (s.inode e).ref + R'.count e)
    (hR : ∀ e', e' ≠ e → R'.count e' = R.count e') (hlock : ip.locked = true ↔ e ∈ L')
    (hL : ∀ e', e' ≠ e → (e' ∈ L ↔ e' ∈ L')) (hnd : L'.Nodup)
    (hheld : e ∈ L' → ip.valid = true ∧ 0 < ip.ref)
    (hkept : 0 < fileRefs s0 e + t e → Kept sb s0 (s.setIp e ip) e)
    (hready : (∀ e', 0 < fileRefs s0 e' + t e' → ((s.setIp e ip).inode e').valid = true) ∨
      L' = [] ∧ Untouched s0 (s.setIp e ip)) :
    Books sb s0 t n (s.setIp e ip) R' L' where
  quiet := ⟨h.quiet.file, h.quiet.proc, h.quiet.pipe, h.quiet.npipe⟩
  outstanding := h.outstanding
  bracketed := h.bracketed
  refs e' := by
    have hrefs := h.refs e'
    by_cases he : e' = e
    · subst he
      rw [setIp_inode_self]
      omega
    · rw [setIp_inode_of_ne he, hrefs, hR e' he]
  locks e' := by
    by_cases he : e' = e
    · subst he
      rw [setIp_inode_self]
      exact hlock
    · rw [setIp_inode_of_ne he]
      exact (h.locks e').trans (hL e' he)
  nodup := hnd
  held e' he' := by
    have hrefs := h.refs e'
    by_cases he : e' = e
    · subst he
      rw [setIp_inode_self]
      have := hheld he'
      exact ⟨this.1, by omega⟩
    · rw [setIp_inode_of_ne he, hR e' he]
      exact h.held e' ((hL e' he).mpr he')
  kept e' he' := by
    by_cases he : e' = e
    · subst he
      exact hkept he'
    · have heq : (s.setIp e ip).inode e' = s.inode e' := setIp_inode_of_ne he ip
      exact (h.kept e' he').congr (by rw [heq]) (by rw [heq]) (by rw [heq])
  ready := hready

theorem setRef {k : Nat} (href : k + R.count e = (s.inode e).ref + R'.count e)
    (hR : ∀ e', e' ≠ e → R'.count e' = R.count e') (hheld : e ∈ L → 0 < k)
    (hpos : 0 < k → 0 < (s.inode e).ref) :
    Books sb s0 t n (s.setIp e { s.inode e with ref := k }) R' L := by
  have hsame : ∀ e', ∃ k', (s.setIp e { s.inode e with ref := k }).inode e' =
      { s.inode e' with ref := k' } ∧ (0 < k' → 0 < (s.inode e').ref) := by
    intro e'
    by_cases hee : e' = e
    · subst hee
      exact ⟨k, setIp_inode_self .., hpos⟩
    · exact ⟨(s.inode e').ref, setIp_inode_of_ne hee _, id⟩
  apply h.setIp href hR
  · exact h.locks e
  · exact fun _ _ => Iff.rfl
  · exact h.nodup
  · exact fun he => ⟨(h.held e he).1, hheld he⟩
  · intro he
    obtain ⟨k', heq, -⟩ := hsame e
    exact (h.kept e he).congr (by rw [heq]) (by rw [heq]) (by rw [heq])
  cases h.ready with
  | inl hr =>
    refine .inl fun e' he' => ?_
    obtain ⟨k', heq, -⟩ := hsame e'
    rw [heq]
    exact hr e' he'
  | inr hr =>
    obtain ⟨hnil, hdisk, e0, hroot⟩ := hr
    obtain ⟨k', heq, -⟩ := hsame e0
    refine .inr ⟨hnil, hdisk, e0, ?_⟩
    rw [heq]
    refine ⟨hroot.1, hroot.2.1, hroot.2.2.1, fun e' he' => ?_⟩
    obtain ⟨k', heq, hpos'⟩ := hsame e'
    rw [heq] at he'
    exact hroot.2.2.2 e' (hpos' he')

theorem incRef (hr : 0 < (s.inode e).ref) :
    Books sb s0 t n (s.setIp e { s.inode e with ref := (s.inode e).ref + 1 }) (e :: R) L := by
  apply h.setRef
  · rw [count_cons_self]
    omega
  · exact fun e' he => count_cons_of_ne (Ne.symm he)
  · exact fun _ => Nat.succ_pos _
  · exact fun _ => hr

omit h in
theorem decRef (h : Books sb s0 t n s (e :: R) L)
    (hL : e ∈ L → 0 < fileRefs s0 e + t e + R.count e) :
    Books sb s0 t n (s.setIp e { s.inode e with ref := (s.inode e).ref - 1 }) R L := by
  have hrefs := h.refs e
  rw [count_cons_self] at hrefs
  apply h.setRef
  · rw [count_cons_self]
    omega
  · exact fun e' he => (count_cons_of_ne (Ne.symm he)).symm
  · intro he
    have := hL he
    omega
  · omega

theorem newEntry {dev inum : Nat} (h0 : (s.inode e).ref = 0)
    (hfirst : L = [] → dev = ROOTDEV ∧ inum = ROOTINO ∧
      ∀ e0, (s.inode e0).dev = ROOTDEV → (s.inode e0).inum = ROOTINO → (s.inode e0).ref = 0) :
    Books sb s0 t n (s.setIp e { s.inode e with dev := dev, inum := inum, ref := 1, valid := false })
      (e :: R) L := by
  have hrefs := h.refs e
  have hnotin : e ∉ L := by
    intro he
    have := h.held e he
    omega
  apply h.setIp
  · rw [count_cons_self, h0]
    change 1 + R.count e = _
    omega
  · exact fun e' he => count_cons_of_ne (Ne.symm he)
  · exact h.locks e
  · exact fun _ _ => Iff.rfl
  · exact h.nodup
  · exact fun he => absurd he hnotin
  · intro he
    omega
  cases h.ready with
  | inl hr =>
    refine .inl fun e' he' => ?_
    have hee : e' ≠ e := by
      intro hee
      rw [hee] at he'
      omega
    rw [setIp_inode_of_ne hee]
    exact hr e' he'
  | inr hr =>
    obtain ⟨hnil, hdisk, e0, hdev, hinum, -, honly⟩ := hr
    obtain ⟨hd, hi, hfree⟩ := hfirst hnil
    refine .inr ⟨hnil, hdisk, e, ?_, ?_, ?_, fun e' he' => ?_⟩
    · rw [setIp_inode_self]
      exact hd
    · rw [setIp_inode_self]
      exact hi
    · rw [setIp_inode_self]
    by_contra hee
    rw [setIp_inode_of_ne hee] at he'
    have h1 := honly e' he'
    have h2 := hfree e0 hdev hinum
    rw [h1] at he'
    omega

/-- `iget` may be called without a lock for the root directory only. -/
theorem iget {dev inum : Nat} (hroot : L = [] → dev = ROOTDEV ∧ inum = ROOTINO) :
    Wp Any (iget dev inum) s fun e s' => Books sb s0 t n s' (e :: R) L := by
  unfold Fs.iget
  rw [wp_bind, wp_get]
  split
  · next e hfind =>
    have hp := List.find?_some hfind
    simp only [decide_eq_true_eq] at hp
    rw [wp_bind, wp_setInode, wp_pure]
    exact h.incRef hp.1
  · next hnone =>
    split
    · next e hfind =>
      have h0 : (s.inode e).ref = 0 := by simpa using List.find?_some hfind
      rw [wp_bind, wp_setInode, wp_pure]
      refine h.newEntry h0 fun hnil => ?_
      obtain ⟨hdev, hinum⟩ := hroot hnil
      refine ⟨hdev, hinum, fun e0 hd hi => ?_⟩
      have hnot := List.find?_eq_none.mp hnone e0 (mem_finRange e0)
      simp only [decide_eq_true_eq] at hnot
      by_contra hne
      exact hnot ⟨Nat.pos_of_ne_zero hne, hd.trans hdev.symm, hi.trans hinum.symm⟩
    · trivial

theorem idup (he : 0 < t e) : Wp Any (idup e) s fun _ s' => Books sb s0 t n s' (e :: R) L := by
  have hrefs := h.refs e
  exact h.incRef (by omega)

omit h in
theorem ialloc (h : Books sb s0 t n s R (l :: L)) (dev : Nat) (type : Int16) :
    Wp Any (ialloc sb dev type) s fun r s' =>
      Books sb s0 t n s' (r.toList ++ R) (l :: L) := by
  have hfrom : ∀ m inum s, Books sb s0 t n s R (l :: L) → Wp Any
      (iallocFrom sb dev type m inum) s fun r s' =>
        Books sb s0 t n s' (r.toList ++ R) (l :: L) := by
    intro m
    induction m with
    | zero => exact fun _ _ h => h
    | succ m ih =>
      intro inum s h
      rw [iallocFrom, wp_bind, wp_bread, wp_ite]
      split_ifs
      · refine (h.wp (logWrite_still ..)).bind ?_
        intro _ s1 h1
        rw [wp_bind]
        exact h1.iget fun hnil => by cases hnil
      · exact ih _ s h
  exact hfrom _ _ s h

theorem lock (hpos : 0 < (s.inode e).ref) (hfree : ¬ (s.inode e).locked = true) {din : Dinode}
    (hold : (s.inode e).valid = true → din.type = (s.inode e).din.type)
    (hnew : ¬ (s.inode e).valid = true → din = dinodeAt sb s.disk (s.inode e).inum) :
    Books sb s0 t n (s.setIp e { s.inode e with locked := true, valid := true, din := din }) R
      (e :: L) := by
  apply h.setIp
  · rfl
  · exact fun _ _ => rfl
  · simp
  · intro e' he
    simp [he]
  · exact List.nodup_cons.mpr ⟨fun he => hfree ((h.locks e).mpr he), h.nodup⟩
  · exact fun _ => ⟨rfl, hpos⟩
  · intro he
    have hk := h.kept e he
    refine ⟨?_, fun _ => ?_, fun _ => ?_⟩ <;> rw [setIp_inode_self]
    · exact hk.inum
    by_cases hv : (s.inode e).valid = true
    · exact (hold hv).trans (hk.type hv)
    have hv0 : ¬ (s0.inode e).valid = true := fun hv0 => hv (hk.valid hv0)
    cases h.ready with
    | inl hr => exact absurd (hr e he) hv
    | inr hr =>
      change din.type = _
      rw [hnew hv, typeOf, if_neg hv0, hr.2.disk, hk.inum]
  · refine .inl fun e' he' => ?_
    by_cases hee : e' = e
    · rw [hee, setIp_inode_self]
    rw [setIp_inode_of_ne hee]
    cases h.ready with
    | inl hr => exact hr e' he'
    | inr hr =>
      obtain ⟨e0, -, -, -, honly⟩ := hr.2.only
      have hrefs := h.refs e'
      exact absurd ((honly e' (by omega)).trans (honly e hpos).symm) hee

theorem ilock (e : Fin NINODE) :
    Wp Any (ilock sb e) s fun _ s' => Books sb s0 t n s' R (e :: L) := by
  simp only [Fs.ilock, wp_bind, wp_getInode, wp_ite, wp_panic, wp_throw, wp_setInode, wp_bread,
    wp_pure, Any]
  split_ifs with h1 h2 h3
  · have hip : ({ s.inode e with locked := true } : Inode) =
        { s.inode e with locked := true, valid := true, din := (s.inode e).din } := by
      simp only [h3]
    rw [hip]
    exact h.lock (by omega) h2 (fun _ => rfl) fun hv => absurd h3 hv
  · exact h.lock (by omega) h2 (fun hv => absurd hv h3) fun _ => rfl

omit h in
theorem iunlock (h : Books sb s0 t n s R (e :: L)) :
    Wp Any (iunlock e) s fun _ s' => Books sb s0 t n s' R L := by
  have hnd := List.nodup_cons.mp h.nodup
  simp only [Fs.iunlock, wp_bind, wp_getInode, wp_ite, wp_panic, wp_setInode, Any]
  split_ifs
  apply h.setIp
  · rfl
  · exact fun _ _ => rfl
  · simp [hnd.1]
  · intro e' he
    simp [he]
  · exact hnd.2
  · exact fun he => absurd he hnd.1
  · intro he
    exact (h.kept e he).congr (by rw [setIp_inode_self]) (by rw [setIp_inode_self])
      (by rw [setIp_inode_self])
  refine .inl fun e' he' => ?_
  by_cases hee : e' = e
  · subst hee
    rw [setIp_inode_self]
    exact h.valid he'
  · rw [setIp_inode_of_ne hee]
    exact h.valid he'

theorem setOwn {ip : Inode} (href : ip.ref = (s.inode e).ref)
    (hlock : ip.locked = (s.inode e).locked) (hL : e ∉ L) (hown : fileRefs s0 e + t e = 0)
    (hr : ∀ e, 0 < fileRefs s0 e + t e → (s.inode e).valid = true) :
    Books sb s0 t n (s.setIp e ip) R L := by
  apply h.setIp
  · rw [href]
  · exact fun _ _ => rfl
  · rw [hlock]
    exact h.locks e
  · exact fun _ _ => Iff.rfl
  · exact h.nodup
  · exact fun he => absurd he hL
  · intro he
    omega
  refine .inl fun e' he' => ?_
  have hee : e' ≠ e := by
    intro hee
    rw [hee] at he'
    omega
  rw [setIp_inode_of_ne hee]
  exact hr e' he'

theorem ifree (hown : fileRefs s0 e + t e = 0)
    (hr : ∀ e, 0 < fileRefs s0 e + t e → (s.inode e).valid = true) :
    Wp Any (ifree sb e) s fun _ s' => Books sb s0 t n s' R L ∧ e ∉ L := by
  have hsame : ∀ {s1 s2 : State}, Still s1 s2 →
      (∀ e, 0 < fileRefs s0 e + t e → (s1.inode e).valid = true) →
      ∀ e, 0 < fileRefs s0 e + t e → (s2.inode e).valid = true :=
    fun hs hr e he => (hs.valid e).trans (hr e he)
  have hset : ∀ {s1 : State} {ip : Inode},
      (∀ e, 0 < fileRefs s0 e + t e → (s1.inode e).valid = true) →
      ∀ e', 0 < fileRefs s0 e' + t e' → ((s1.setIp e ip).inode e').valid = true := by
    intro s1 ip hr e' he'
    have hee : e' ≠ e := by
      intro hee
      rw [hee] at he'
      omega
    rw [setIp_inode_of_ne hee]
    exact hr e' he'
  rw [Fs.ifree, wp_bind, wp_get, wp_ite]
  by_cases hlock : (s.inode e).locked = true
  · rw [if_pos hlock]
    trivial
  have hL : e ∉ L := fun he => hlock ((h.locks e).mpr he)
  rw [if_neg hlock]
  refine ((note_still ?_).wp s).bind ?_
  · intro x
    split_ifs <;> rfl
  intro _ s1 hs1
  refine ((itrunc_still e).wp s1).bind ?_
  intro _ s2 hs2
  have h2 := (h.still hs1 hr).still hs2 (hsame hs1 hr)
  have hr2 := hsame hs2 (hsame hs1 hr)
  rw [wp_bind, wp_setInode]
  refine ((iupdate_still e).wp _).bind ?_
  intro _ s4 hs4
  rw [wp_setInode]
  have h3 : Books sb s0 t n (s2.setIp e { s2.inode e with din.type := 0 }) R L :=
    h2.setOwn rfl rfl hL hown hr2
  have h4 := h3.still hs4 (hset hr2)
  exact ⟨h4.setOwn rfl rfl hL hown (hsame hs4 (hset hr2)), hL⟩

end

theorem iput (h : Books sb s0 t 1 s (e :: R) L) (hL : e ∈ L → 0 < fileRefs s0 e + t e + R.count e) :
    Wp Any (iput sb e) s fun _ s' => Books sb s0 t 1 s' R L := by
  have ho : 0 < s.outstanding := by
    rw [h.outstanding]
    exact Nat.one_pos
  rw [Fs.iput, wp_bind, wp_get, wp_bind, wp_noteUnless (decide_eq_true ho), wp_bind, wp_getInode,
    wp_ite]
  split_ifs with hlast
  · obtain ⟨h1, hv, -⟩ := hlast
    have hrefs := h.refs e
    rw [count_cons_self] at hrefs
    have hr : ∀ e, 0 < fileRefs s0 e + t e → (s.inode e).valid = true := by
      cases h.ready with
      | inl hr => exact hr
      | inr hr =>
        obtain ⟨e0, -, -, hv0, honly⟩ := hr.2.only
        rw [honly e (by omega), hv0] at hv
        cases hv
    refine (h.ifree (by omega) hr).bind ?_
    rintro _ s1 ⟨h1, hnot⟩
    rw [wp_setInode]
    exact h1.decRef fun he => absurd he hnot
  · rw [wp_setInode]
    exact h.decRef hL

theorem iunlockput (h : Books sb s0 t 1 s (e :: R) (e :: L)) :
    Wp Any (iunlockput sb e) s fun _ s' => Books sb s0 t 1 s' R L := by
  have hnd := List.nodup_cons.mp h.nodup
  rw [Fs.iunlockput]
  refine h.iunlock.bind ?_
  intro _ s1 h1
  exact h1.iput fun he => absurd he hnd.1

theorem clock (h : Books sb s0 t n s R L) {m : Nat} {lh : List Nat} {hist : History}
    (hh : hist.unbracketed = false) :
    Books sb s0 t m { s with outstanding := m, lh := lh, hist := hist } R L :=
  ⟨⟨h.quiet.file, h.quiet.proc, h.quiet.pipe, h.quiet.npipe⟩, rfl, hh, h.refs, h.locks, h.nodup,
    h.held, fun e he => ⟨(h.kept e he).inum, (h.kept e he).valid, (h.kept e he).type⟩,
    h.ready.imp_right fun hr => ⟨hr.1, hr.2.disk, hr.2.only⟩⟩

theorem beginOp (h : Books sb s0 t 0 s R L) :
    Wp Any beginOp s fun _ s' => Books sb s0 t 1 s' R L := by
  have ho : decide (s.outstanding = 0) = true := by rw [h.outstanding]; rfl
  rw [Fs.beginOp, wp_bind, wp_get, wp_bind, wp_noteUnless ho, wp_ite]
  split_ifs
  · trivial
  · rw [wp_modify, h.outstanding]
    exact h.clock h.bracketed

theorem endOp (h : Books sb s0 t 1 s R L) : Wp Any endOp s fun _ s' => Books sb s0 t 0 s' R L := by
  have ho : decide (0 < s.outstanding) = true := by rw [h.outstanding]; rfl
  have hlast : s.outstanding - 1 = 0 := by rw [h.outstanding]
  rw [Fs.endOp, wp_bind, wp_get, wp_bind, wp_noteUnless ho, if_pos hlast, wp_bind, wp_note,
    wp_modify]
  exact h.clock h.bracketed

variable {p : Fin NPROC}

theorem dirlookup (h : Books sb s0 t n s R (l :: L)) (dp : Fin NINODE) (name : List UInt8) :
    Wp Any (dirlookup sb dp name) s fun r s' =>
      Books sb s0 t n s' ((r.map (·.1)).toList ++ R) (l :: L) := by
  have hfrom : ∀ fuel off s, Books sb s0 t n s R (l :: L) → Wp Any
      (dirlookupFrom sb dp name fuel off) s fun r s' =>
        Books sb s0 t n s' ((r.map (·.1)).toList ++ R) (l :: L) := by
    intro fuel
    induction fuel with
    | zero =>
      intro off s h
      rw [dirlookupFrom, wp_bind, wp_getInode, wp_ite]
      split_ifs
      · trivial
      · exact h
    | succ fuel ih =>
      intro off s h
      rw [dirlookupFrom, wp_bind, wp_getInode, wp_ite]
      by_cases hoff : off < (s.inode dp).din.size.toNat
      · rw [if_pos hoff]
        refine (h.wp (readi_still ..)).bind ?_
        intro r s1 h1
        simp only [wp_ite, wp_bind, wp_panic, wp_pure, Any]
        split_ifs
        · exact ih _ s1 h1
        · exact h1.iget fun hnil => by cases hnil
        · exact ih _ s1 h1
      · rw [if_neg hoff]
        exact h
  rw [Fs.dirlookup, wp_bind, wp_getInode, wp_ite]
  split_ifs
  · trivial
  · exact hfrom _ _ s h

theorem dirlink (h : Books sb s0 t 1 s R (l :: L)) (dp : Fin NINODE) (name : List UInt8)
    (inum : Nat) :
    Wp Any (dirlink sb dp name inum) s fun _ s' => Books sb s0 t 1 s' R (l :: L) := by
  rw [Fs.dirlink]
  refine (h.dirlookup dp name).bind ?_
  intro r s1 h1
  cases r with
  | some x =>
    rw [wp_bind]
    exact h1.iput fun he => (h.held _ he).2
  | none =>
    exact h1.wp (.bind (getInode_still dp) fun _ => .bind (emptyFrom_still ..) fun _ =>
      .bind (writei_still ..) fun _ => .pure _)

theorem namexFrom (parent : Bool) (fuel : Nat) (path last : List UInt8)
    (h : Books sb s0 t 1 s (e :: R) []) :
    Wp Any (namexFrom sb parent fuel e path last) s fun r s' =>
      Books sb s0 t 1 s' ((r.map (·.1)).toList ++ R) [] := by
  induction fuel generalizing s e path last with
  | zero => trivial
  | succ fuel ih =>
    rw [Fs.namexFrom]
    split
    · rw [wp_ite]
      split_ifs
      · rw [wp_bind]
        exact h.iput fun he => by cases he
      · exact h
    refine (h.ilock e).bind ?_
    intro _ s1 h1
    rw [wp_bind, wp_getInode, wp_ite]
    split_ifs
    · rw [wp_bind]
      exact h1.iunlockput
    · rw [wp_bind]
      exact h1.iunlock
    refine (h1.dirlookup e _).bind ?_
    intro r s2 h2
    cases r with
    | none =>
      rw [wp_bind]
      exact h2.iunlockput
    | some x =>
      refine h2.swapRefs.iunlockput.bind ?_
      intro _ s3 h3
      exact ih _ _ h3

section

variable (h : Books sb s0 t 1 s R []) (hcwd : 0 < t (s0.proc p).cwd) (path : List UInt8)
include h hcwd path

theorem namex (parent : Bool) :
    Wp Any (namex sb p path parent) s fun r s' =>
      Books sb s0 t 1 s' ((r.map (·.1)).toList ++ R) [] := by
  rw [Fs.namex, wp_bind, wp_get, wp_ite]
  split_ifs
  · refine (h.iget fun _ => ⟨rfl, rfl⟩).bind ?_
    intro e s1 h1
    exact namexFrom _ _ _ _ h1
  · rw [wp_bind, h.quiet.proc]
    refine (h.idup hcwd).mono ?_
    intro _ s1 h1
    exact namexFrom _ _ _ _ h1

theorem namei : Wp Any (namei sb p path) s fun r s' => Books sb s0 t 1 s' (r.toList ++ R) [] := by
  rw [Fs.namei, wp_bind]
  exact h.namex hcwd path false

theorem nameiparent :
    Wp Any (nameiparent sb p path) s fun r s' =>
      Books sb s0 t 1 s' ((r.map (·.1)).toList ++ R) [] := h.namex hcwd path true

end

variable {dp : Fin NINODE}

theorem createFail (h : Books sb s0 t 1 s (e :: dp :: R) [e, dp]) :
    Wp Any (createFail sb e dp) s fun r s' =>
      Books sb s0 t 1 s' (r.toList ++ R) r.toList := by
  rw [Fs.createFail]
  refine (h.wp (setNlink_still ..)).bind ?_
  intro _ s1 h1
  refine (h1.wp (iupdate_still e)).bind ?_
  intro _ s2 h2
  refine h2.iunlockput.bind ?_
  intro _ s3 h3
  rw [wp_bind]
  exact h3.iunlockput

theorem createEntry (h : Books sb s0 t 1 s (e :: dp :: R) [e, dp]) (name : List UInt8)
    (type : Int16) : Wp Any (createEntry sb e dp name type) s fun r s' =>
      Books sb s0 t 1 s' (r.toList ++ R) r.toList := by
  rw [Fs.createEntry, wp_bind, wp_getInode]
  refine (h.dirlink dp name _).bind ?_
  intro r s1 h1
  cases r with
  | false => exact h1.createFail
  | true =>
    rw [if_pos rfl]
    refine (h1.wp (noteParent_still dp)).bind ?_
    intro _ s2 h2
    rw [wp_ite]
    split_ifs
    · refine (h2.wp (incNlink_still dp)).bind ?_
      intro _ s3 h3
      refine (h3.wp (iupdate_still dp)).bind ?_
      intro _ s4 h4
      rw [wp_bind]
      exact h4.swapRefs.swapLocks.iunlockput
    · rw [wp_bind]
      exact h2.swapRefs.swapLocks.iunlockput

theorem createInode (h : Books sb s0 t 1 s (e :: dp :: R) [dp]) (name : List UInt8)
    (type major minor : Int16) :
    Wp Any (createInode sb e dp name type major minor) s fun r s' =>
      Books sb s0 t 1 s' (r.toList ++ R) r.toList := by
  rw [Fs.createInode]
  refine (h.ilock e).bind ?_
  intro _ s1 h1
  rw [wp_bind]
  refine Wp.mono (h1.wp (setDin_still e ?_)) ?_
  · exact fun _ => rfl
  intro _ s2 h2
  refine (h2.wp (iupdate_still e)).bind ?_
  intro _ s3 h3
  rw [wp_ite]
  split_ifs
  · rw [wp_bind, wp_getInode, wp_bind, wp_getInode, wp_bind, createDots]
    refine (h3.dirlink e _ _).bind ?_
    intro r s4 h4
    have hrest : ∀ r s', Books sb s0 t 1 s' (e :: dp :: R) [e, dp] →
        Wp Any (if r = true then Fs.createEntry sb e dp name type
          else Fs.createFail sb e dp) s' fun r s' =>
            Books sb s0 t 1 s' (r.toList ++ R) r.toList := by
      intro r s' h
      rw [wp_ite]
      split_ifs
      · exact h.createEntry name type
      · exact h.createFail
    rw [wp_ite]
    split_ifs
    · exact (h4.dirlink e _ _).mono hrest
    · exact hrest false s4 h4
  · exact h3.createEntry name type

theorem create (h : Books sb s0 t 1 s R []) (hcwd : 0 < t (s0.proc p).cwd)
    (path : List UInt8) (type major minor : Int16) :
    Wp Any (create sb p path type major minor) s fun r s' =>
      Books sb s0 t 1 s' (r.toList ++ R) r.toList := by
  rw [Fs.create]
  refine (h.nameiparent hcwd path).bind ?_
  intro r s1 h1
  cases r with
  | none => exact h1
  | some x =>
    obtain ⟨dp, name⟩ := x
    dsimp only
    refine (h1.ilock dp).bind ?_
    intro _ s2 h2
    refine (h2.dirlookup dp name).bind ?_
    intro r s3 h3
    cases r with
    | some x =>
      obtain ⟨e, off⟩ := x
      dsimp only
      refine h3.swapRefs.iunlockput.bind ?_
      intro _ s4 h4
      refine (h4.ilock e).bind ?_
      intro _ s5 h5
      rw [wp_bind, wp_getInode, wp_ite]
      split_ifs
      · exact h5
      · rw [wp_bind]
        exact h5.iunlockput
    | none =>
      dsimp only
      rw [wp_bind, wp_getInode]
      refine (h3.ialloc _ type).bind ?_
      intro r s4 h4
      cases r with
      | none =>
        rw [wp_bind]
        exact h4.iunlockput
      | some e => exact h4.createInode name type major minor

theorem release (h : Books sb s0 t 1 s (e :: R) [e]) (r : Int) :
    Wp Any (do Fs.iunlockput sb e; Fs.endOp; return r) s fun _ s' =>
      Books sb s0 t 0 s' R [] := by
  refine h.iunlockput.bind ?_
  intro _ s1 h1
  rw [wp_bind]
  exact h1.endOp

theorem linkBad (h : Books sb s0 t 1 s (e :: R) []) :
    Wp Any (linkBad sb e) s fun _ s' => Books sb s0 t 0 s' R [] := by
  rw [Fs.linkBad]
  refine (h.ilock e).bind ?_
  intro _ s1 h1
  refine (h1.wp (setNlink_still ..)).bind ?_
  intro _ s2 h2
  refine (h2.wp (iupdate_still e)).bind ?_
  intro _ s3 h3
  exact h3.release (-1)

theorem sysLink (h : Books sb s0 t 0 s R []) (hcwd : 0 < t (s0.proc p).cwd) (old new : List UInt8) :
    Wp Any (sysLink sb p old new) s fun _ s' => Books sb s0 t 0 s' R [] := by
  unfold Fs.sysLink
  split
  · next old new _ _ =>
    refine h.beginOp.bind ?_
    intro _ s1 h1
    refine (h1.namei hcwd old).bind ?_
    intro r s2 h2
    cases r with
    | none =>
      rw [wp_bind]
      exact h2.endOp
    | some e =>
      dsimp only
      refine (h2.ilock e).bind ?_
      intro _ s3 h3
      rw [wp_bind, wp_getInode, wp_ite]
      split_ifs
      · exact h3.release (-1)
      refine (h3.wp (incNlink_still e)).bind ?_
      intro _ s4 h4
      refine (h4.wp (iupdate_still e)).bind ?_
      intro _ s5 h5
      refine h5.iunlock.bind ?_
      intro _ s6 h6
      refine (h6.nameiparent hcwd new).bind ?_
      intro r s7 h7
      cases r with
      | none => exact h7.linkBad
      | some x =>
        obtain ⟨dp, name⟩ := x
        dsimp only
        refine (h7.ilock dp).bind ?_
        intro _ s8 h8
        rw [wp_bind, wp_getInode, wp_bind, wp_getInode, wp_ite]
        split_ifs
        · refine h8.iunlockput.bind ?_
          intro _ s9 h9
          exact h9.linkBad
        refine (h8.dirlink dp name _).bind ?_
        intro ok s9 h9
        rw [wp_ite]
        split_ifs
        · refine (h9.wp (noteParent_still dp)).bind ?_
          intro _ s10 h10
          refine h10.iunlockput.bind ?_
          intro _ s11 h11
          refine (h11.iput fun he => by cases he).bind ?_
          intro _ s12 h12
          rw [wp_bind]
          exact h12.endOp
        · refine h9.iunlockput.bind ?_
          intro _ s10 h10
          exact h10.linkBad
  · exact h

theorem unlinkEntry (h : Books sb s0 t 1 s (e :: dp :: R) [e, dp]) (off : Nat) :
    Wp Any (unlinkEntry sb dp e off) s fun _ s' => Books sb s0 t 0 s' R [] := by
  have hrest : ∀ s', Books sb s0 t 1 s' (e :: R) [e] → Wp Any
      (do setNlink e (· - 1); iupdate sb e; Fs.iunlockput sb e; Fs.endOp; return (0 : Int)) s'
        fun _ s' => Books sb s0 t 0 s' R [] := by
    intro s' h
    refine (h.wp (setNlink_still ..)).bind ?_
    intro _ s1 h1
    refine (h1.wp (iupdate_still e)).bind ?_
    intro _ s2 h2
    exact h2.release 0
  rw [Fs.unlinkEntry]
  refine (h.wp (writei_still ..)).bind ?_
  intro r s1 h1
  rw [wp_ite]
  split_ifs
  · trivial
  rw [wp_bind, wp_getInode]
  by_cases hdir : (s1.inode e).din.type = T_DIR
  · rw [if_pos hdir]
    dsimp only
    refine (h1.wp (setNlink_still ..)).bind ?_
    intro _ s2 h2
    refine (h2.wp (iupdate_still dp)).bind ?_
    intro _ s3 h3
    refine h3.swapRefs.swapLocks.iunlockput.bind ?_
    intro _ s4 h4
    exact hrest s4 h4
  · rw [if_neg hdir]
    refine h1.swapRefs.swapLocks.iunlockput.bind ?_
    intro _ s2 h2
    exact hrest s2 h2

theorem unlinkBad (h : Books sb s0 t 1 s (dp :: R) [dp]) :
    Wp Any (unlinkBad sb dp) s fun _ s' => Books sb s0 t 0 s' R [] := h.release (-1)

variable (h : Books sb s0 t 0 s R []) (hcwd : 0 < t (s0.proc p).cwd) (path : List UInt8)
include h hcwd

theorem sysUnlink : Wp Any (sysUnlink sb p path) s fun _ s' => Books sb s0 t 0 s' R [] := by
  unfold Fs.sysUnlink
  split
  · exact h
  · next path _ =>
    refine h.beginOp.bind ?_
    intro _ s1 h1
    refine (h1.nameiparent hcwd path).bind ?_
    intro r s2 h2
    cases r with
    | none =>
      rw [wp_bind]
      exact h2.endOp
    | some x =>
      obtain ⟨dp, name⟩ := x
      dsimp only
      refine (h2.ilock dp).bind ?_
      intro _ s3 h3
      rw [wp_ite]
      split_ifs
      · exact h3.unlinkBad
      refine (h3.dirlookup dp name).bind ?_
      intro r s4 h4
      cases r with
      | none => exact h4.unlinkBad
      | some x =>
        obtain ⟨e, off⟩ := x
        dsimp only
        refine (h4.ilock e).bind ?_
        intro _ s5 h5
        rw [wp_bind, wp_getInode]
        simp only [wp_ite]
        split_ifs
        · trivial
        · refine (h5.wp (isdirempty_still e)).bind ?_
          intro ok s6 h6
          rw [wp_ite]
          split_ifs
          · exact h6.unlinkEntry off
          · refine h6.iunlockput.bind ?_
            intro _ s7 h7
            exact h7.unlinkBad
        · exact h5.unlinkEntry off

omit h hcwd in
theorem created {r : Option (Fin NINODE)} (h : Books sb s0 t 1 s (r.toList ++ R) r.toList) :
    Wp Any (created sb r) s fun _ s' => Books sb s0 t 0 s' R [] := by
  cases r with
  | none =>
    rw [Fs.created, wp_bind]
    exact h.endOp
  | some e => exact h.release 0

theorem make (type major minor : Int16) :
    Wp Any (do
        Fs.beginOp
        match argstr path with
        | none => Fs.created sb none
        | some path => do
            let r ← Fs.create sb p path type major minor
            Fs.created sb r) s fun _ s' => Books sb s0 t 0 s' R [] := by
  refine h.beginOp.bind ?_
  intro _ s1 h1
  split
  · exact h1.created
  · refine (h1.create hcwd _ type major minor).bind ?_
    intro r s2 h2
    exact h2.created

theorem sysExec (argv : Bool) (reads : List (Nat × Nat)) (r : Int) :
    Wp Any (sysExec sb p path argv reads r) s fun _ s' => Books sb s0 t 0 s' R [] := by
  unfold Fs.sysExec
  split
  · exact h
  · next path _ =>
    rw [wp_ite]
    split_ifs
    · refine h.beginOp.bind ?_
      intro _ s1 h1
      refine (h1.namei hcwd path).bind ?_
      intro r s2 h2
      cases r with
      | none =>
        rw [wp_bind]
        exact h2.endOp
      | some e =>
        dsimp only
        refine (h2.ilock e).bind ?_
        intro _ s3 h3
        refine (h3.wp (readAll_still ..)).bind ?_
        intro _ s4 h4
        exact h4.release _
    · exact h

end Books

end Xv6.Fs
