import Xv6.Kernel.Fs.Consistency
import Xv6.Kernel.Fs.OpenFiles

namespace Xv6.Fs

open Hoare Transition Function List

/-- What is counted agrees with what is held, between two system calls. -/
structure Rest (sb : Superblock) (s : State) : Prop where
  ledger : Ledger sb s (procRefs s) 0 [] [] 0
  idle : ∀ p, (s.proc p).used = false → ∀ fd, (s.proc p).ofile fd = none
  device : ∀ f, (s.file f).type = .device → typeOf sb s (s.file f).ip = T_DEVICE

/-- What a system call that returns `r` has done: a failed one leaves the descriptors alone, and an
entry of the inode table that is in use before and after the call is that of the same inode. -/
structure Settled (sb : Superblock) (s : State) (r : Int) (s' : State) : Prop where
  rest : Rest sb s'
  failed : r < 0 → ∀ p, (s'.proc p).ofile = (s.proc p).ofile
  kept : ∀ e, 0 < (s.inode e).ref → 0 < (s'.inode e).ref → SameInode sb s s' e

variable {sb : Superblock} {s s' s0 : State} {t : Fin NINODE → Nat} {n : Nat}
  {R L : List (Fin NINODE)} {e : Fin NINODE} {f : Fin NFILE} {p q : Fin NPROC}

theorem Rest.refs (h : Rest sb s) (e : Fin NINODE) :
    (s.inode e).ref = fileRefs s e + procRefs s e := by
  rw [h.ledger.books.refs e, count_nil, Nat.add_zero]

theorem Rest.of_ledger (h : Rest sb s) (hl : Ledger sb s' (procRefs s) 0 [] [] 0)
    (hprocs : SameProcs s s') (hp : (s.proc p).used)
    (hofile : ∀ q, q ≠ p → (s'.proc q).ofile = (s.proc q).ofile)
    (hdev : ∀ f, (s'.file f).type = .device → typeOf sb s' (s'.file f).ip = T_DEVICE) :
    Rest sb s' := by
  refine ⟨?_, ?_, hdev⟩
  · rw [procRefs_congr hprocs]
    exact hl
  intro q hq fd
  rw [(hprocs q).1] at hq
  have hqp : q ≠ p := by
    intro hqp
    rw [hqp, hp] at hq
    cases hq
  rw [hofile q hqp]
  exact h.idle q hq fd

theorem Rest.still_device (h : Rest sb s) (ht : Trail sb t s s') (f : Fin NFILE)
    (hf : (s'.file f).type = .device) : typeOf sb s' (s'.file f).ip = T_DEVICE := by
  obtain ⟨hf', hip⟩ := ht.device f hf
  have hpos : 0 < fileRefs s' (s'.file f).ip := fileRefs_pos (.inr hf)
  rw [(ht.same _ (Nat.add_pos_left hpos _)).2, hip]
  exact h.device f hf'

theorem Rest.kept (h : Rest sb s') (ht : Trail sb t s s') (hrefs : procRefs s' = t)
    (he : 0 < (s'.inode e).ref) : SameInode sb s s' e := by
  rw [h.refs e, hrefs] at he
  exact ht.same e he

theorem SameProcs.trans {s''} (h : SameProcs s s') (h' : SameProcs s' s'') : SameProcs s s'' :=
  fun q => ⟨(h' q).1.trans (h q).1, (h' q).2.trans (h q).2⟩

theorem SameProcs.of_eq (h : s'.proc = s.proc) : SameProcs s s' := by
  intro p
  rw [h]
  exact ⟨rfl, rfl⟩

variable (h : Rest sb s) (hp : (s.proc p).used)

section

include h hp

theorem Rest.done (hl : Ledger sb s' (procRefs s) 0 [] [] 0) (hprocs : SameProcs s s')
    (hofile : ∀ q, q ≠ p → (s'.proc q).ofile = (s.proc q).ofile) (ht : Trail sb (procRefs s) s s')
    {r : Int} (hr : r < 0 → ∀ q, (s'.proc q).ofile = (s.proc q).ofile) : Settled sb s r s' := by
  have hrest : Rest sb s' := h.of_ledger hl hprocs hp hofile (h.still_device ht)
  exact ⟨hrest, hr, fun e _ he => hrest.kept ht (procRefs_congr hprocs) he⟩

theorem Rest.restored (hl : Ledger sb s' (procRefs s) 0 [] [] 0) (hproc : s'.proc = s.proc)
    (ht : Trail sb (procRefs s) s s') (r : Int) : Settled sb s r s' :=
  h.done hp hl (.of_eq hproc) (fun q _ => by rw [hproc]) ht fun _ q => by rw [hproc]

theorem Rest.settled (hb : Books sb s (procRefs s) 0 s' [] []) (r : Int) : Settled sb s r s' :=
  h.restored hp (h.ledger.quiet hb) hb.quiet.proc hb.trail r

theorem Rest.refl_settled (r : Int) : Settled sb s r s := h.settled hp h.ledger.books r

theorem Rest.end_settled (hb : Books sb s (procRefs s) 1 s' [] []) :
    Wp Any (do endOp; return (-1 : Int)) s' (Settled sb s) := by
  rw [wp_bind]
  exact hb.endOp.mono fun _ _ h1 => h.settled hp h1 _

theorem Rest.release_settled (hb : Books sb s (procRefs s) 1 s' [e] [e]) : Wp Any
      (do iunlockput sb e; endOp; return (-1 : Int)) s' (Settled sb s) :=
  (hb.release (-1)).mono fun r _ h1 => h.settled hp h1 r

end

theorem Rest.setProc {x : Proc} (h : Rest sb s) (hl : Ledger sb s' t 0 [] [] 0)
    (hx : x.ofile = (s'.proc q).ofile) (hidle : x.used = false → ∀ fd, x.ofile fd = none)
    (hprocs : SameProcs s s') (hofile : ∀ y, y ≠ q → (s'.proc y).ofile = (s.proc y).ofile)
    (hrefs : ∀ e, othersRefs s q e + x.refTo e = t e)
    (hdev : ∀ f, (s'.file f).type = .device → typeOf sb s' (s'.file f).ip = T_DEVICE) :
    Rest sb { s' with proc := update s'.proc q x } ∧
      procRefs { s' with proc := update s'.proc q x } = t := by
  have heq : procRefs { s' with proc := update s'.proc q x } = t := by
    funext e
    rw [procRefs_update rfl, othersRefs_congr hprocs]
    exact hrefs e
  refine ⟨⟨heq ▸ hl.setProc hx, fun y hy fd => ?_, hdev⟩, heq⟩
  by_cases hyq : y = q
  · subst hyq
    simp only [update_self] at hy ⊢
    exact hidle hy fd
  · simp only [update_of_ne hyq] at hy ⊢
    rw [hofile y hyq]
    exact h.idle y ((hprocs y).1 ▸ hy) fd

theorem Books.setOff (h : Books sb s0 t n s R L) {x : File} (hx : x.base = (s.file f).base) :
    Books sb s0 t n (s.setF f x) R L where
  quiet := by
    refine ⟨fun g => ?_, h.quiet.proc, h.quiet.pipe, h.quiet.npipe⟩
    by_cases hg : g = f
    · subst hg
      rw [setF_file_self, hx]
      exact h.quiet.file g
    · rw [setF_file_of_ne hg]
      exact h.quiet.file g
  outstanding := h.outstanding
  bracketed := h.bracketed
  refs := h.refs
  locks := h.locks
  nodup := h.nodup
  held := h.held
  kept e he := ⟨(h.kept e he).inum, (h.kept e he).valid, (h.kept e he).type⟩
  ready := h.ready.imp_right fun hr => ⟨hr.1, hr.2.disk, hr.2.only⟩

theorem Books.fileread (h : Books sb s0 t n s R []) (ok : Nat → Nat → Bool) (k io : Int) :
    Wp Any (fileread sb f ok k io) s fun _ s' => Books sb s0 t n s' R [] := by
  simp only [Fs.fileread, wp_bind, wp_get]
  by_cases h1 : (s.file f).readable = false
  · rw [if_pos h1]
    exact h
  rw [if_neg h1]
  split
  · exact h
  · rw [wp_ite]
    split_ifs <;> exact h
  · refine (h.ilock _).bind ?_
    intro _ s1 h1
    refine (h1.wp (readi_still ..)).bind ?_
    intro r s2 h2
    simp only [wp_ite, wp_bind, wp_setFile, wp_pure]
    split_ifs
    · refine Wp.mono (h2.setOff ?_).iunlock fun _ _ h3 => h3
      rfl
    · exact h2.iunlock
  · trivial

theorem Books.filewriteLoop (h : Books sb s0 t 0 s R []) (src : Source) (k fuel i : Nat) :
    Wp Any (filewriteLoop sb f src k fuel i) s fun _ s' =>
      Books sb s0 t 0 s' R [] := by
  induction fuel generalizing s i with
  | zero =>
    rw [Fs.filewriteLoop, wp_ite]
    split_ifs
    · trivial
    · exact h
  | succ fuel ih =>
    rw [Fs.filewriteLoop, wp_ite]
    split_ifs
    · rw [wp_bind, wp_get]
      dsimp only
      refine h.beginOp.bind ?_
      intro _ s1 h1
      refine (h1.ilock _).bind ?_
      intro _ s2 h2
      refine (h2.wp (writei_still ..)).bind ?_
      intro r s3 h3
      rw [wp_bind, wp_setFile, wp_bind]
      have hoff : ({ s3.file f with off := ((s3.file f).off + r.toNat) % 2 ^ 32 } : File).base =
          (s3.file f).base := rfl
      refine Wp.mono (h3.setOff (x := if 0 < r then _ else _) ?_).iunlock ?_
      · split_ifs
        · exact hoff
        · rfl
      intro _ s4 h4
      refine h4.endOp.bind ?_
      intro _ s5 h5
      rw [wp_ite]
      split_ifs
      · exact h5
      · exact ih h5 _
    · exact h

theorem Books.filewrite (h : Books sb s0 t 0 s R []) (src : Source) (k io : Int) :
    Wp Any (filewrite sb f src k io) s fun _ s' => Books sb s0 t 0 s' R [] := by
  simp only [Fs.filewrite, wp_bind, wp_get]
  by_cases h1 : (s.file f).writable = false
  · rw [if_pos h1]
    exact h
  rw [if_neg h1]
  split
  · exact h
  · rw [wp_ite]
    split_ifs <;> exact h
  · rw [wp_bind]
    exact h.filewriteLoop ..
  · trivial

theorem Books.sysFstat (h : Books sb s0 t n s R []) (fd : Int) (ok : Bool) :
    Wp Any (sysFstat sb p fd ok) s fun _ s' => Books sb s0 t n s' R [] := by
  rw [Fs.sysFstat]
  refine argfd_wp h fun _ f _ => ?_
  dsimp only
  rw [wp_bind, wp_get]
  by_cases htype : (s.file f).type = .inode ∨ (s.file f).type = .device
  · rw [if_pos htype]
    refine (h.ilock _).bind ?_
    intro _ s2 h2
    rw [wp_bind]
    exact h2.iunlock
  · rw [if_neg htype]
    exact h

variable {d : Fin NFILE → Int}

/-- An open file that is not in use yet takes over the call's reference to an inode. -/
theorem Ledger.openFile (h : Ledger sb s t n (e :: R) L d) (he : e ∈ L)
    {x : File} (htype : (s.file f).type = .none) (href : x.ref = (s.file f).ref) (hpos : x.ref ≠ 0)
    (hx : x.type = .inode ∨ x.type = .device) (hip : x.ip = e) :
    Ledger sb (s.setF f x) t n R L d := by
  constructor
  · have hr : ∀ e', fileRefs (s.setF f x) e' = fileRefs s e' + x.refTo e' := by
      intro e'
      have hr := fileRefs_setF (s := s) (f := f) x e'
      rwa [refTo_none htype, Nat.add_zero] at hr
    have hh : ∀ e', hold t e e' = t e' + x.refTo e' := by
      intro e'
      rw [← hold_eq_refTo hx, hip]
    refine h.books.retable rfl rfl rfl (fun e' => ?_) fun e' he' => ?_
    · have h1 := hr e'
      have h2 := hh e'
      have h3 := Books.hold_count t R e e'
      omega
    by_cases hee : e' = e
    · rw [hee]
      exact .inr he
    · have h1 := hr e'
      have h2 := hh e'
      rw [hold_of_ne t hee] at h2
      exact .inl (by omega)
  · have hs := h.files.setF (f := f) (x := x) (fun h0 => absurd h0 hpos) fun i w => ?_
    · rw [href, Int.sub_self, owe_zero] at hs
      exact hs
    constructor
    · intro hx'
      rw [hx'.1] at hx
      simp at hx
    · intro hf
      rw [hf.1] at htype
      cases htype

theorem openInode_settled (h : Rest sb s0) (hp : (s0.proc p).used)
    (hb : Books sb s0 (procRefs s0) 1 s [e] [e]) (omode : Nat) :
    Wp Any (openInode sb p e omode) s (Settled sb s0) := by
  have hl : Ledger sb s (procRefs s0) 1 [e] [e] 0 := h.ledger.quiet hb
  rw [openInode, wp_bind, wp_getInode]
  by_cases hdev : (s.inode e).din.type = T_DEVICE ∧
      ((s.inode e).din.major < 0 ∨ (NDEV : Int) ≤ (s.inode e).din.major.toInt)
  · rw [if_pos hdev]
    exact h.release_settled hp hb
  rw [if_neg hdev]
  refine hl.filealloc.bind ?_
  intro r s1 hr
  cases r with
  | none =>
    subst hr
    exact h.release_settled hp hb
  | some f =>
    obtain ⟨h1, hs1, h0, htype, htrail1⟩ := hr
    have hproc1 : s1.proc = s0.proc := by
      rw [hs1]
      exact hb.quiet.proc
    have htype1 : (s1.file f).type = .none := by rw [hs1, setF_file_self]; exact htype
    have href1 : (s1.file f).ref = 1 := by rw [hs1, setF_file_self]
    dsimp only
    refine (fdalloc_wp p f).bind ?_
    intro r s2 hr
    cases r with
    | none =>
      subst hr
      dsimp only
      refine (h1.fileclose (.inr htype1)).bind ?_
      rintro _ s3 ⟨h3, hp3, htrail3⟩
      rw [owe_owe, Int.add_right_neg, owe_zero] at h3
      refine (h3.books.release (-1)).mono ?_
      intro r s4 h4
      have hproc : s4.proc = s0.proc := by rw [h4.quiet.proc, hp3, hproc1]
      exact h.restored hp (h3.quiet h4) hproc
        (((hb.trail.trans htrail1).trans htrail3).trans h4.trail) r
    | some fd =>
      obtain ⟨hfd, hs2⟩ := hr
      have h2 : Ledger sb s2 (procRefs s0) 1 [e] [e] 0 := by
        rw [hs2]
        exact h1.useFd hfd
      have hprocs : SameProcs s0 s2 := by
        rw [hs2]
        exact (SameProcs.of_eq hproc1).trans (setFd_sameProcs _)
      have hofile : ∀ q, q ≠ p → (s2.proc q).ofile = (s0.proc q).ofile := by
        intro q hq
        rw [hs2, setFd_proc_of_ne hq, hproc1]
      have htype2 : (s2.file f).type = .none := by rw [hs2]; exact htype1
      have href2 : (s2.file f).ref = 1 := by rw [hs2]; exact href1
      dsimp only
      rw [wp_bind, wp_setFile]
      generalize hy : ({ s2.file f with
        type := _, major := _, off := _, ip := e, readable := _, writable := _ } : File) = y
      have h3 : Ledger sb (s2.setF f y) (procRefs s0) 1 [] [e] 0 := by
        rw [← hy]
        refine h2.openFile (List.mem_singleton.mpr rfl) htype2 rfl ?_ ?_ rfl
        · simp [href2]
        · by_cases hty : (s.inode e).din.type = T_DEVICE
          · exact .inr (if_pos hty)
          · exact .inl (if_neg hty)
      have hydev : y.type = .device → typeOf sb s y.ip = T_DEVICE := by
        intro hdev
        rw [← hy] at hdev ⊢
        rw [typeOf_valid (hb.held e (List.mem_singleton.mpr rfl)).1]
        by_contra hne
        rw [if_neg hne] at hdev
        cases hdev
      have hsame3 : ∀ x, SameInode sb s (s2.setF f y) x := fun x =>
        .of_eq (by rw [hs2, hs1]; rfl) (by rw [hs2, hs1]; rfl) x
      have hend : ∀ s3, Books sb (s2.setF f y) (procRefs s0) 1 s3 [] [e] → Wp Any
          (do iunlock e; endOp; return (fd.val : Int)) s3 (Settled sb s0) := by
        intro s3 h4
        refine h4.iunlock.bind ?_
        intro _ s5 h5
        refine h5.endOp.bind ?_
        intro _ s6 h6
        have hproc : s6.proc = s2.proc := h6.quiet.proc
        have hprocs6 : SameProcs s0 s6 := by
          rw [SameProcs, hproc]
          exact hprocs
        have hrest : Rest sb s6 := by
          refine h.of_ledger (h3.quiet h6) hprocs6 hp (by rw [hproc]; exact hofile) fun g hg => ?_
          obtain ⟨hg3, hip⟩ := h6.trail.device g hg
          have hpos : 0 < fileRefs s6 (s6.file g).ip := fileRefs_pos (.inr hg)
          rw [(h6.trail.same _ (Nat.add_pos_left hpos _)).2, hip, (hsame3 _).2]
          by_cases hgf : g = f
          · subst hgf
            rw [setF_file_self] at hg3 ⊢
            exact hydev hg3
          · have hg2 : (s2.setF f y).file g = s.file g := by
              rw [setF_file_of_ne hgf, hs2, hs1]
              exact setF_file_of_ne hgf _
            rw [hg2] at hg3 ⊢
            exact h.still_device hb.trail g hg3
        refine ⟨hrest, fun hr => by omega, fun x hx hx' => ?_⟩
        rw [h.refs x] at hx
        rw [hrest.refs x, procRefs_congr hprocs6] at hx'
        exact ((hb.same hx).trans (hsame3 x)).trans (h6.trail.same x hx')
      rw [wp_ite]
      split_ifs
      · rw [wp_bind]
        exact (h3.books.wp (itrunc_still e)).mono fun _ s4 h4 => hend s4 h4
      · exact hend _ h3.books

section

include h hp

theorem sysOpen_settled (path : List UInt8) (omode : Nat) :
    Wp Any (sysOpen sb p path omode) s (Settled sb s) := by
  unfold sysOpen
  split
  · exact h.refl_settled hp _
  · next path _ =>
    refine h.ledger.books.beginOp.bind ?_
    intro _ s1 h1
    rw [wp_ite]
    split_ifs
    · refine (h1.create (cwd_pos hp) path T_FILE 0 0).bind ?_
      intro r s2 h2
      cases r with
      | none => exact h.end_settled hp h2
      | some e => exact openInode_settled h hp h2 omode
    refine (h1.namei (cwd_pos hp) path).bind ?_
    intro r s2 h2
    cases r with
    | none => exact h.end_settled hp h2
    | some e =>
      dsimp only
      refine (h2.ilock e).bind ?_
      intro _ s3 h3
      rw [wp_bind, wp_getInode, wp_ite]
      split_ifs
      · exact h.release_settled hp h3
      · exact openInode_settled h hp h3 omode

theorem Rest.setFd_settled {fd : Fin NOFILE} {o : Option (Fin NFILE)} {r : Int}
    (hl : Ledger sb s' (procRefs s) 0 [] [] 0) (hproc : s'.proc = (s.setFd p fd o).proc)
    (ht : Trail sb (procRefs s) (s.setFd p fd o) s') (hr : 0 ≤ r) : Settled sb s r s' := by
  have hprocs : SameProcs s s' := by
    rw [SameProcs, hproc]
    exact setFd_sameProcs _
  have htrail : Trail sb (procRefs s) s s' := by
    have h1 : Trail sb (procRefs s) s (s.setFd p fd o) := .of_procs rfl rfl rfl
    exact h1.trans ht
  refine h.done hp hl hprocs (fun q hq => ?_) htrail fun hneg => by omega
  rw [hproc, setFd_proc_of_ne hq]

theorem sysClose_settled (fd : Int) : Wp Any (sysClose sb p fd) s (Settled sb s) := by
  rw [sysClose]
  refine argfd_wp (h.refl_settled hp _) fun fd f hfd => ?_
  have h2 : Ledger sb (s.setFd p fd none) (procRefs s) 0 [] [] (owe 0 f 1) := h.ledger.dropFd hfd
  dsimp only
  rw [wp_bind]
  change Wp _ (do fileclose sb f; return (0 : Int)) (s.setFd p fd none) _
  refine (h2.fileclose (.inl ⟨rfl, rfl⟩)).bind ?_
  rintro _ s3 ⟨h3, hp3, htrail⟩
  rw [owe_owe, Int.add_right_neg, owe_zero] at h3
  exact h.setFd_settled hp h3 hp3 htrail (le_refl 0)

theorem sysDup_settled (fd : Int) : Wp Any (sysDup p fd) s (Settled sb s) := by
  rw [sysDup]
  refine argfd_wp (h.refl_settled hp _) fun _ f _ => ?_
  dsimp only
  refine (fdalloc_wp p f).bind ?_
  intro r s2 hr
  cases r with
  | none =>
    subst hr
    exact h.refl_settled hp _
  | some fd =>
    obtain ⟨hfd, hs2⟩ := hr
    subst hs2
    -- the descriptor holds the file before the file counts it
    have h2 : Ledger sb (s.setFd p fd (some f)) (procRefs s) 0 [] [] (owe 0 f (-1)) := by
      refine Ledger.useFd ?_ hfd
      rw [owe_owe, Int.add_left_neg, owe_zero]
      exact h.ledger
    dsimp only
    refine (h2.filedup f).bind ?_
    rintro _ s3 ⟨h3, hp3, htrail⟩
    rw [owe_owe, Int.add_left_neg, owe_zero] at h3
    exact h.setFd_settled hp h3 hp3 htrail (Int.natCast_nonneg _)

end

theorem Ledger.undo (h : Ledger sb s t 0 R [] (owe d f 1)) :
    Wp Any (Fs.fileclose sb f) s fun _ s' =>
      Ledger sb s' t 0 R [] d ∧ s'.proc = s.proc ∧ Trail sb t s s' := by
  refine (h.fileclose (.inl ⟨rfl, rfl⟩)).mono ?_
  intro _ s1 h1
  rw [owe_owe, Int.add_right_neg, owe_zero] at h1
  exact h1

theorem Ledger.undo_two {α : Type} {f g : Fin NFILE} {r : α}
    (h : Ledger sb s t 0 R [] (owe (owe d f 1) g 1)) :
    Wp Any (do Fs.fileclose sb f; Fs.fileclose sb g; return r) s fun r' s' =>
      r' = r ∧ Ledger sb s' t 0 R [] d ∧ s'.proc = s.proc ∧ Trail sb t s s' := by
  rw [owe_comm] at h
  refine h.undo.bind ?_
  rintro _ s1 ⟨h1, hp1, ht1⟩
  refine h1.undo.bind ?_
  rintro _ s2 ⟨h2, hp2, ht2⟩
  exact ⟨rfl, h2, hp2.trans hp1, ht1.trans ht2⟩

theorem Ledger.pipealloc (h : Ledger sb s t 0 R [] 0) (mem : Bool) :
    Wp Any (pipealloc sb mem) s fun r s' =>
      (s'.proc = s.proc ∧ Trail sb t s s') ∧ match r with
        | none => Ledger sb s' t 0 R [] 0
        | some (f0, f1) => Ledger sb s' t 0 R [] (owe (owe 0 f0 1) f1 1) := by
  rw [Fs.pipealloc]
  refine h.filealloc.bind ?_
  intro r s1 hr
  cases r with
  | none =>
    subst hr
    exact ⟨⟨rfl, .of_procs rfl rfl rfl⟩, h⟩
  | some f0 =>
    obtain ⟨h1, hs1, -, htype0, ht1⟩ := hr
    have hp1 : s1.proc = s.proc := by rw [hs1]; rfl
    dsimp only
    refine h1.filealloc.bind ?_
    intro r s2 hr
    cases r with
    | none =>
      subst hr
      dsimp only
      refine h1.undo.bind ?_
      rintro _ s3 ⟨h3, hp3, ht3⟩
      exact ⟨⟨hp3.trans hp1, ht1.trans ht3⟩, h3⟩
    | some f1 =>
      obtain ⟨h2, hs2, hfree, htype1, ht2⟩ := hr
      have hp2 : s2.proc = s.proc := by rw [hs2]; exact hp1
      have hne : f0 ≠ f1 := by
        intro hf
        rw [hs1, ← hf, setF_file_self] at hfree
        exact absurd hfree Nat.one_ne_zero
      have hfile0 : s2.file f0 = { s.file f0 with ref := 1 } := by
        rw [hs2, setF_file_of_ne hne, hs1, setF_file_self]
      have hfile1 : s2.file f1 = { s1.file f1 with ref := 1 } := by rw [hs2, setF_file_self]
      have hnone0 : (s2.file f0).type = .none := by rw [hfile0]; exact htype0
      have hnone1 : (s2.file f1).type = .none := by rw [hfile1]; exact htype1
      cases mem with
      | false =>
        dsimp only
        rw [if_neg (by simp)]
        refine h2.undo_two.mono ?_
        rintro r s3 ⟨hr, h3, hp3, ht3⟩
        subst hr
        exact ⟨⟨hp3.trans hp2, (ht1.trans ht2).trans ht3⟩, h3⟩
      | true =>
        dsimp only
        rw [if_pos rfl, wp_bind, Fs.newPipe, wp_bind, wp_get, wp_bind, wp_set, wp_pure, wp_bind,
          wp_setFile, wp_bind, wp_setFile, wp_pure, setF_file_of_ne hne.symm]
        refine ⟨⟨hp2, (ht1.trans ht2).trans (.of_eq rfl rfl (fun e => ?_) ?_)⟩,
          h2.newPipe hne hnone0 hnone1 ⟨rfl, rfl, rfl⟩ ⟨rfl, rfl, rfl⟩ rfl rfl
            (by rw [hfile0]; exact Nat.one_ne_zero) (by rw [hfile1]; exact Nat.one_ne_zero)⟩
        · exact (fileRefs_congr rfl e).trans (fileRefs_newPipe hne hnone0 hnone1 rfl rfl e)
        · intro g hg
          obtain ⟨hg1, hip1⟩ := device_setF (f := f1) (fun hd => by cases hd) g hg
          obtain ⟨hg0, hip0⟩ := device_setF (f := f0) (fun hd => by cases hd) g hg1
          exact ⟨hg0, hip1.trans hip0⟩

section

include h hp

theorem pipe_undo {f g : Fin NFILE} (hl : Ledger sb s' (procRefs s) 0 [] [] (owe (owe 0 f 1) g 1))
    (hproc : s'.proc = s.proc) (ht : Trail sb (procRefs s) s s') :
    Wp Any (do fileclose sb f; fileclose sb g; return (-1 : Int)) s'
      (Settled sb s) := by
  refine hl.undo_two.mono ?_
  rintro r s1 ⟨_, h1, hp1, ht1⟩
  exact h.restored hp h1 (hp1.trans hproc) (ht.trans ht1) r

theorem sysPipe_settled (mem ok : Bool) : Wp Any (sysPipe sb p mem ok) s (Settled sb s) := by
  rw [sysPipe]
  refine (h.ledger.pipealloc mem).bind ?_
  rintro r s1 ⟨⟨hp1, ht1⟩, hr⟩
  cases r with
  | none => exact h.restored hp hr hp1 ht1 _
  | some x =>
    obtain ⟨rf, wf⟩ := x
    have h1 : Ledger sb s1 (procRefs s) 0 [] [] (owe (owe 0 rf 1) wf 1) := hr
    dsimp only
    refine (fdalloc_wp p rf).bind ?_
    intro r s2 hr
    cases r with
    | none =>
      subst hr
      exact pipe_undo h hp h1 hp1 ht1
    | some fd0 =>
      obtain ⟨hfd0, hs2⟩ := hr
      subst hs2
      have h2 : Ledger sb (s1.setFd p fd0 (some rf)) (procRefs s) 0 [] [] (owe 0 wf 1) := by
        rw [owe_comm] at h1
        exact h1.useFd hfd0
      dsimp only
      refine (fdalloc_wp p wf).bind ?_
      intro r s3 hr
      cases r with
      | none =>
        subst hr
        dsimp only
        rw [wp_bind]
        change Wp _ _ ((s1.setFd p fd0 (some rf)).setFd p fd0 none) _
        refine pipe_undo h hp ?_ ?_ (ht1.trans (.of_procs rfl rfl rfl))
        · rw [owe_comm]
          exact h2.dropFd (by rw [setFd_ofile_self, update_self])
        · rw [setFd_setFd, setFd_eq_self hfd0, hp1]
      | some fd1 =>
        obtain ⟨hfd1, hs3⟩ := hr
        have h3 : Ledger sb s3 (procRefs s) 0 [] [] 0 := by
          rw [hs3]
          exact h2.useFd hfd1
        have hne : fd0 ≠ fd1 := by
          intro hfd
          rw [setFd_ofile_self, ← hfd, update_self] at hfd1
          cases hfd1
        cases ok with
        | true =>
          have hprocs : SameProcs s s3 := by
            rw [hs3]
            exact ((SameProcs.of_eq hp1).trans (setFd_sameProcs _)).trans (setFd_sameProcs _)
          have ht3 : Trail sb (procRefs s) s s3 := by
            rw [hs3]
            exact ht1.trans (.of_procs rfl rfl rfl)
          refine h.done hp h3 hprocs (fun q hq => ?_) ht3 fun hneg => by omega
          rw [hs3, setFd_proc_of_ne hq, setFd_proc_of_ne hq, hp1]
        | false =>
          dsimp only
          rw [if_neg (by simp), wp_bind]
          change Wp _ _ (s3.setFd p fd0 none) _
          rw [wp_bind]
          have hold0 : (s3.proc p).ofile fd0 = some rf := by
            rw [hs3, setFd_ofile_self, update_of_ne hne, setFd_ofile_self, update_self]
          have hold1 : ((s3.setFd p fd0 none).proc p).ofile fd1 = some wf := by
            rw [setFd_ofile_self, update_of_ne hne.symm, hs3, setFd_ofile_self, update_self]
          change Wp _ _ ((s3.setFd p fd0 none).setFd p fd1 none) _
          have ht3 : Trail sb (procRefs s) s ((s3.setFd p fd0 none).setFd p fd1 none) := by
            rw [hs3]
            exact ht1.trans (.of_procs rfl rfl rfl)
          refine pipe_undo h hp ((h3.dropFd hold0).dropFd hold1) ?_ ht3
          rw [setFd_ofile_self, update_of_ne hne.symm] at hfd1
          rw [hs3, setFd_comm hne.symm, setFd_setFd, setFd_setFd, setFd_eq_self hfd0,
            setFd_eq_self hfd1, hp1]

omit h hp in
theorem Ledger.forkFiles (h : Ledger sb s t 0 R L 0) (fds : List (Fin NOFILE))
    (hnd : fds.Nodup) (hnone : ∀ fd ∈ fds, (s.proc q).ofile fd = none) :
    Wp Any (forkFiles p q fds) s fun _ s' =>
      Ledger sb s' t 0 R L 0 ∧ SameProcs s s' ∧
        (∀ x, x ≠ q → (s'.proc x).ofile = (s.proc x).ofile) ∧ Trail sb t s s' := by
  induction fds generalizing s with
  | nil => exact ⟨h, fun _ => ⟨rfl, rfl⟩, fun _ _ => rfl, .of_procs rfl rfl rfl⟩
  | cons fd fds ih =>
    obtain ⟨hfd, hnd⟩ := List.nodup_cons.mp hnd
    rw [Fs.forkFiles, wp_bind, wp_get]
    split
    · exact ih h hnd fun fd' hfd' => hnone fd' (mem_cons_of_mem _ hfd')
    · next f _ =>
      refine (h.filedup f).bind ?_
      rintro _ s1 ⟨h1, hp1, ht1⟩
      rw [wp_bind]
      change Wp _ _ (s1.setFd q fd (some f)) _
      have hfree : (s1.proc q).ofile fd = none := by
        rw [hp1]
        exact hnone fd mem_cons_self
      have h2 := h1.useFd hfree
      refine (ih h2 hnd ?_).mono ?_
      · intro fd' hfd'
        have hne : fd' ≠ fd := fun hh => hfd (hh ▸ hfd')
        rw [setFd_ofile_self, update_of_ne hne, hp1]
        exact hnone fd' (mem_cons_of_mem _ hfd')
      rintro _ s3 ⟨h3, hsame, hofile, ht3⟩
      have ht2 : Trail sb t s (s1.setFd q fd (some f)) := ht1.trans (.of_procs rfl rfl rfl)
      refine ⟨h3, ((SameProcs.of_eq hp1).trans (setFd_sameProcs _)).trans hsame, fun x hx => ?_,
        ht2.trans ht3⟩
      rw [hofile x hx, setFd_proc_of_ne hx, hp1]

theorem fork_settled (q : Fin NPROC) (mem : Bool) : Wp Any (fork p q mem) s (Settled sb s) := by
  rw [fork, wp_bind, wp_get]
  by_cases hq : (s.proc q).used = true ∨ mem = false
  · rw [if_pos hq]
    exact h.refl_settled hp _
  have hq : (s.proc q).used = false := by
    rw [← Bool.not_eq_true]
    exact fun hq' => hq (.inl hq')
  rw [if_neg (by assumption)]
  refine (h.ledger.forkFiles _ (nodup_finRange _) fun fd _ => h.idle q hq fd).bind ?_
  rintro _ s1 ⟨h1, hsame, hofile, ht1⟩
  refine (h1.books.idup (cwd_pos hp)).bind ?_
  intro _ s2 h2
  have hproc2 : s2.proc = s1.proc := h2.quiet.proc
  have hsame2 : SameProcs s s2 := by
    rw [SameProcs, hproc2]
    exact hsame
  rw [wp_bind, Fs.setProc, wp_modify, wp_pure]
  have hgive := h2.rebase.give (.inr (Nat.add_pos_right _ (cwd_pos hp)))
  have ht := ht1.trans h2.trail
  obtain ⟨hrest, hrefs⟩ := h.setProc (q := q)
    (x := { s2.proc q with used := true, cwd := (s.proc p).cwd }) ⟨hgive, (h1.quiet h2).files⟩ rfl
    (fun hu => by cases hu) hsame2 (fun y hy => by rw [hproc2, hofile y hy])
    (fun e => by rw [othersRefs_unused hq]; exact add_refTo rfl ..) (h.still_device ht)
  refine ⟨hrest, fun hneg => by omega, fun e _ he => (ht.trans (.of_procs rfl rfl rfl)).same e ?_⟩
  by_cases hcwd : e = (s.proc p).cwd
  · rw [hcwd]
    exact Nat.add_pos_right _ (cwd_pos hp)
  · rwa [hrest.refs e, hrefs, hold_of_ne _ hcwd] at he

omit h hp in
theorem Ledger.exitFiles (h : Ledger sb s t 0 R [] 0) (fds : List (Fin NOFILE))
    (hfds : ∀ fd, (s.proc p).ofile fd = none ∨ fd ∈ fds) :
    Wp Any (exitFiles sb p fds) s fun _ s' =>
      Ledger sb s' t 0 R [] 0 ∧ SameProcs s s' ∧ (∀ fd, (s'.proc p).ofile fd = none) ∧
        (∀ q, q ≠ p → (s'.proc q).ofile = (s.proc q).ofile) ∧ Trail sb t s s' := by
  induction fds generalizing s with
  | nil =>
    exact ⟨h, fun _ => ⟨rfl, rfl⟩, fun fd => (hfds fd).resolve_right (by simp), fun _ _ => rfl,
      .of_procs rfl rfl rfl⟩
  | cons fd fds ih =>
    rw [Fs.exitFiles, wp_bind, wp_get]
    split
    · next hnone =>
      apply ih h
      intro fd'
      cases hfds fd' with
      | inl h0 => exact .inl h0
      | inr hmem =>
        cases List.mem_cons.mp hmem with
        | inl heq => exact .inl (heq ▸ hnone)
        | inr hmem => exact .inr hmem
    · next f hf =>
      refine (h.fileclose (.inl ⟨rfl, rfl⟩)).bind ?_
      rintro _ s1 ⟨h1, hp1, ht1⟩
      rw [wp_bind]
      change Wp _ _ (s1.setFd p fd none) _
      have hheld : (s1.proc p).ofile fd = some f := by
        rw [hp1]
        exact hf
      have h2 := h1.dropFd hheld
      rw [owe_owe, Int.add_left_neg, owe_zero] at h2
      refine (ih h2 ?_).mono ?_
      · intro fd'
        rw [setFd_ofile_self]
        by_cases hfd : fd' = fd
        · rw [hfd, update_self]
          exact .inl rfl
        · rw [update_of_ne hfd, hp1]
          exact (hfds fd').imp_right fun hmem => (List.mem_cons.mp hmem).resolve_left hfd
      rintro _ s3 ⟨h3, hsame, hnone, hofile, ht3⟩
      have ht2 : Trail sb t s (s1.setFd p fd none) := ht1.trans (.of_procs rfl rfl rfl)
      refine ⟨h3, ((SameProcs.of_eq hp1).trans (setFd_sameProcs _)).trans hsame, hnone,
        fun x hx => ?_, ht2.trans ht3⟩
      rw [hofile x hx, setFd_proc_of_ne hx, hp1]

theorem exit_settled : Wp Any (exit sb p) s (Settled sb s) := by
  rw [exit, wp_ite]
  split_ifs
  · trivial
  refine (h.ledger.exitFiles _ fun fd => .inr (mem_finRange fd)).bind ?_
  rintro _ s1 ⟨h1, hsame, hnone, hofile, ht1⟩
  rw [wp_bind, wp_get, wp_bind]
  have hless : ∀ e, othersRefs s p e ≤ procRefs s e := fun e => by
    rw [procRefs_eq_hold hp]
    exact le_hold _ _ _
  have ht1 := ht1.mono hless
  rw [procRefs_eq_hold hp, ← (hsame p).2] at h1
  refine h1.books.take.beginOp.mono ?_
  intro _ s2 h2
  refine (h2.iput fun he => by cases he).bind ?_
  intro _ s3 h3
  refine h3.endOp.bind ?_
  intro _ s4 h4
  have hproc4 : s4.proc = s1.proc := h4.quiet.proc
  have hsame4 : SameProcs s s4 := by
    rw [SameProcs, hproc4]
    exact hsame
  rw [wp_bind, Fs.setProc, wp_modify, wp_pure]
  have ht := ht1.trans h4.trail
  obtain ⟨hrest, hrefs⟩ := h.setProc (q := p) (x := { s4.proc p with used := false })
    (h1.quiet h4) rfl (fun _ => by rw [hproc4]; exact hnone) hsame4
    (fun y hy => by rw [hproc4, hofile y hy]) (fun e => by rw [refTo_unused rfl, Nat.add_zero])
    (h.still_device ht)
  exact ⟨hrest, fun hneg => by omega,
    fun e _ he => hrest.kept (ht.trans (.of_procs rfl rfl rfl)) hrefs he⟩

theorem sysChdir_settled (path : List UInt8) : Wp Any (sysChdir sb p path) s (Settled sb s) := by
  rw [sysChdir]
  refine h.ledger.books.beginOp.bind ?_
  intro _ s1 h1
  split
  · exact h.end_settled hp h1
  · next path _ =>
    refine (h1.namei (cwd_pos hp) path).bind ?_
    intro r s2 h2
    cases r with
    | none => exact h.end_settled hp h2
    | some e =>
      dsimp only
      refine (h2.ilock e).bind ?_
      intro _ s3 h3
      rw [wp_bind, wp_getInode, wp_ite]
      split_ifs
      · exact h.release_settled hp h3
      -- the process gives up its directory and takes the new one while that is locked
      have hproc3 : s3.proc = s.proc := h3.quiet.proc
      have hmoved := h3.rebase
      rw [procRefs_eq_hold hp] at hmoved
      have hmoved := hmoved.take.swapRefs.give (.inl (List.mem_singleton.mpr rfl))
      refine hmoved.iunlock.bind ?_
      intro _ s4 h4
      have hproc4 : s4.proc = s.proc := h4.quiet.proc.trans hproc3
      rw [wp_bind, wp_get, wp_bind, hproc4]
      refine (h4.iput fun he => by cases he).mono ?_
      intro _ s5 h5
      refine h5.endOp.bind ?_
      intro _ s6 h6
      have hproc6 : s6.proc = s.proc := h6.quiet.proc.trans hproc3
      have hsame6 : SameProcs s s6 := .of_eq hproc6
      rw [wp_bind, Fs.setProc, wp_modify, wp_pure]
      have hused : ({ s6.proc p with cwd := e } : Proc).used = true := by rw [hproc6]; exact hp
      have hl3 : Ledger sb s3 _ 1 [(s.proc p).cwd] [e] 0 := ⟨hmoved, (h.ledger.quiet h3).files⟩
      have ht := h6.trail
      obtain ⟨hrest, hrefs⟩ := h.setProc (q := p) (x := { s6.proc p with cwd := e }) (hl3.quiet h6) rfl
        (fun hu => by rw [hused] at hu; cases hu) hsame6
        (fun y _ => by rw [hproc6]) (add_refTo hused _) fun f hf => by
          obtain ⟨hf3, hip⟩ := ht.device f hf
          have hpos := fileRefs_pos (.inr hf)
          rw [(ht.same _ (Nat.add_pos_left hpos _)).2, hip]
          exact h.still_device h3.trail f hf3
      refine ⟨hrest, fun hneg => by omega, fun e' he he' => ?_⟩
      rw [h.refs e'] at he
      exact (h3.same he).trans (hrest.kept (ht.trans (.of_procs rfl rfl rfl)) hrefs he')

/-- Every system call that returns has settled its accounts. -/
theorem syscall_settled (c : Call) : Wp Any (syscall sb p c) s (Settled sb s) := by
  have hb := h.ledger.books
  have hcwd := cwd_pos hp
  cases c with
  | «open» path omode => exact sysOpen_settled h hp path omode
  | close fd => exact sysClose_settled h hp fd
  | dup fd => exact sysDup_settled h hp fd
  | read fd ok k io =>
    exact argfd_wp (h.refl_settled hp _) fun _ _ _ =>
      (hb.fileread ok k io).mono fun r _ h1 => h.settled hp h1 r
  | write fd src k io =>
    exact argfd_wp (h.refl_settled hp _) fun _ _ _ =>
      (hb.filewrite src k io).mono fun r _ h1 => h.settled hp h1 r
  | fstat fd ok => exact (hb.sysFstat fd ok).mono fun r _ h1 => h.settled hp h1 r
  | link old new => exact (hb.sysLink hcwd old new).mono fun r _ h1 => h.settled hp h1 r
  | unlink path => exact (hb.sysUnlink hcwd path).mono fun r _ h1 => h.settled hp h1 r
  | mkdir path => exact (hb.make hcwd path T_DIR 0 0).mono fun r _ h1 => h.settled hp h1 r
  | mknod path major minor =>
    exact (hb.make hcwd path T_DEVICE _ _).mono fun r _ h1 => h.settled hp h1 r
  | chdir path => exact sysChdir_settled h hp path
  | exec path argv reads r =>
    exact (hb.sysExec hcwd path argv reads r).mono fun r _ h1 => h.settled hp h1 r
  | pipe mem ok => exact sysPipe_settled h hp mem ok
  | fork q mem => exact fork_settled h hp q mem
  | exit => exact exit_settled h hp

end

theorem boot_rest (d : Disk) : Rest sb (boot d) := by
  have hslots : ∀ f, slots (boot d) f = 0 := fun f => by simp [slots, boot, fdRef]
  have hroot : ∀ e, 0 < ((boot d).inode e).ref → e = ⟨0, by decide⟩ := by
    intro e he
    by_contra hne
    have hne : e.val ≠ 0 := fun h0 => hne (Fin.ext h0)
    simp [boot, hne] at he
  refine ⟨⟨⟨.refl _, rfl, rfl, fun e => ?_, fun e => ?_, nodup_nil,
    fun _ he => absurd he not_mem_nil, fun _ _ => .refl .., .inr ⟨rfl, rfl, _, rfl, rfl, rfl, hroot⟩⟩, fun f => ?_, fun _ _ => rfl,
    fun f hf => ?_, fun f g i w hf => ?_, fun i hi => ?_, fun i hi => ?_⟩, fun _ _ _ => rfl,
    fun f hf => ?_⟩
  · rw [boot_fileRefs, boot_procRefs]
    by_cases he : e.val = 0
    all_goals simp [boot, he]
  · by_cases he : e.val = 0
    all_goals simp [boot, he]
  · rw [hslots]
    rfl
  · cases hf
  · cases hf.1
  · exact absurd hi (Nat.not_lt_zero i)
  · exact absurd hi (Nat.not_lt_zero i)
  · cases hf

theorem run_rest {d : Disk} {calls : List (Fin NPROC × Call)}
    (hrun : Run (Step sb) (boot d) calls s) : Rest sb s := by
  refine hrun.invariant (Rest sb) (boot_rest d) ?_
  intro s1 l s2 h hl
  obtain ⟨hp, r, hc⟩ := syscall_of_step hl
  exact ((syscall_settled h hp l.2).result hc).rest

/-- Open files are counted. Whatever the disk, after any run of system calls: the reference count of
every open file is the number of descriptors that hold it, a file without references has no type,
each end of a pipe is open exactly while some open file is that end, the page of a pipe has been
freed once if both ends are closed and never before, and a system call that fails changes no
descriptor and no reference count. -/
theorem open_files_are_counted (sb : Superblock) (d : Disk) (calls : List (Fin NPROC × Call))
    (s : State) (hrun : Run (Step sb) (boot d) calls s) :
    (∀ f, (s.file f).ref = slots s f) ∧
      (∀ f, (s.file f).ref = 0 → (s.file f).type = .none) ∧
      (∀ i, i < s.npipe → ∀ w, (s.pipe i).opened w = true ↔
        ∃ f, 0 < (s.file f).ref ∧ (s.file f).IsEnd i w) ∧
      (∀ i, i < s.npipe → (s.pipe i).freed =
        if (s.pipe i).readopen = true ∨ (s.pipe i).writeopen = true then 0 else 1) ∧
      ∀ p c r s', (s.proc p).used = true → syscall sb p c s = .ok (r, s') → r < 0 →
        (∀ q, (s'.proc q).ofile = (s.proc q).ofile) ∧ ∀ f, (s'.file f).ref = (s.file f).ref := by
  have h := run_rest hrun
  have hf := h.ledger.files
  have hslots : ∀ {s : State}, Rest sb s → ∀ f, (s.file f).ref = slots s f := by
    intro s h f
    have := h.ledger.files.refs f
    rw [Pi.zero_apply] at this
    omega
  refine ⟨hslots h, hf.closed, fun i hi w => ?_, hf.freed, fun p c r s' hp hcall hr => ?_⟩
  · rw [hf.ends i hi w]
    refine exists_congr fun f => ⟨fun hx => ⟨?_, hx⟩, fun hx => hx.2⟩
    apply Nat.pos_of_ne_zero
    intro h0
    have htype := hx.1
    rw [hf.closed f h0] at htype
    cases htype
  · have hs := (syscall_settled h hp c).result hcall
    refine ⟨hs.failed hr, fun f => ?_⟩
    rw [hslots hs.rest, hslots h, slots_congr (hs.failed hr)]

def p1 : Fin NPROC := ⟨1, by decide⟩

theorem open_files_are_counted_demo :
    ∃ s, Run (Step Mkfs.sb) (boot demoImage) [(p0, .pipe true true), (p0, .fork p1 true),
        (p1, .close 0), (p0, .exec [102, 0] true [] (-1))] s ∧
      ∀ f, (s.file f).ref = slots s f := by
  have h : (exec (call Mkfs.sb) (boot demoImage) [(p0, .pipe true true), (p0, .fork p1 true),
      (p1, .close 0), (p0, .exec [102, 0] true [] (-1))]).isSome = true := by decide +kernel
  obtain ⟨s, hs⟩ := Option.isSome_iff_exists.mp h
  have hrun := run_of_exec _ _ _ _ hs
  exact ⟨s, hrun, (open_files_are_counted Mkfs.sb demoImage _ s hrun).1⟩

end Xv6.Fs
