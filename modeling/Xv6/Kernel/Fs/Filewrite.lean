import Xv6.Kernel.Fs.Balance
import Xv6.Kernel.Fs.FileData

namespace Xv6.Fs

open ByteCodec Hoare Function

variable {sb : Superblock} {s s' : State} {t : Fin NINODE → Nat} {e : Fin NINODE} {f : Fin NFILE}

/-- A round of the loop of `filewrite` from `begin_op` to just before `end_op`. -/
def filewriteBody (sb : Superblock) (f : Fin NFILE) (src : Source) (n i : Nat) : FsM Int := do
  let s ← get
  beginOp
  ilock sb (s.file f).ip
  let r ← writei sb (s.file f).ip (src.drop i) (s.file f).off (min (n - i) maxWrite)
  setFile f fun x => if 0 < r then { x with off := (x.off + r.toNat) % 2 ^ 32 } else x
  iunlock (s.file f).ip
  return r

theorem filewriteLoop_succ (src : Source) {n i : Nat} (h : i < n) (fuel : Nat) :
    filewriteLoop sb f src n (fuel + 1) i = (do
      let r ← filewriteBody sb f src n i
      endOp
      if r ≠ (min (n - i) maxWrite : Nat) then return i
      else filewriteLoop sb f src n fuel (i + min (n - i) maxWrite)) := by
  rw [filewriteLoop, if_pos h, filewriteBody]
  simp only [bind_assoc, pure_bind]

/-- The copy of the disk inode that `ilock` leaves in entry `e`. -/
def foundDin (sb : Superblock) (s : State) (e : Fin NINODE) : Dinode :=
  if (s.inode e).valid then (s.inode e).din else dinodeAt sb s.disk (s.inode e).inum

/-- What `ilock` does to a file without holes, whatever else is on the disk. -/
theorem ilock_found {P : Stop → Prop} {Q : PUnit → State → Prop} (hstop : P .deadlock)
    (href : P (.panic .ilock)) (htype : P (.panic .ilockNoType))
    (hgo : ∀ ip, ip.ref = (s.inode e).ref → 1 ≤ ip.ref → ip.locked = true →
      ip.din = foundDin sb s e → Q ⟨⟩ (s.setIp e ip)) : Wp P (ilock sb e) s Q := by
  simp only [ilock, wp_bind, wp_getInode, wp_ite, wp_panic, wp_throw, wp_setInode, wp_bread,
    wp_pure]
  split_ifs with hr hl hv hz
  · exact href
  · exact hstop
  · exact hgo _ rfl (not_lt.mp hr) rfl (if_pos hv).symm
  · exact htype
  · exact hgo _ rfl (not_lt.mp hr) rfl (if_neg hv).symm

/-- Every operation of `filewrite` fits its reservation: for a file without holes it adds at most
`MAXOPBLOCKS` blocks to the log, and it stops before it has added any or for a log that is smaller
than that. -/
theorem filewrite_fits_reservation (sb : Superblock) (s : State) (f : Fin NFILE) (src : Source)
    (n i : Nat) (hhole : ∀ bn, bn * BSIZE < (foundDin sb s (s.file f).ip).size.toNat →
      blockAt s.disk (foundDin sb s (s.file f).ip) bn ≠ 0) :
    Wp (fun x => x = .deadlock ∨ x = .panic .ilock ∨ x = .panic .ilockNoType ∨
        Overfull sb (s.lh.length + (MAXOPBLOCKS - 1)) x)
      (filewriteBody sb f src n i) s fun _ s' => s'.lh.length ≤ s.lh.length + MAXOPBLOCKS := by
  simp only [filewriteBody, beginOp, noteUnless, wp_bind, wp_get, wp_note, wp_ite, wp_throw,
    wp_modify]
  split_ifs
  · exact .inl trivial
  apply ilock_found (.inl rfl) (.inr (.inl rfl)) (.inr (.inr (.inl rfl)))
  intro ip _ hr hl hdin
  generalize hs : ({ s with hist := _, outstanding := _ } : State).setIp (s.file f).ip ip = s1
  have hlh : s1.lh = s.lh := by rw [← hs]; rfl
  have hip : s1.inode (s.file f).ip = ip := by rw [← hs, setIp_inode_self]
  have hwrite : Wp (Overfull sb (s.lh.length + (MAXOPBLOCKS - 1)))
      (writei sb (s.file f).ip (src.drop i) (s.file f).off (min (n - i) maxWrite)) s1 _ :=
    writei_budget_chunk (by rw [← hs]; exact Nat.succ_pos _) _ (Nat.min_le_right _ _)
      (by rw [hip, hdin, ← hs]; exact hhole)
      (by rw [hlh]; exact le_rfl)
  have hstill : Keeps Still (writei sb (s.file f).ip (src.drop i) (s.file f).off
    (min (n - i) maxWrite)) := writei_still ..
  refine ((hwrite.besides (hstill.wp s1)).errors fun x hx => .inr (.inr (.inr hx))).mono ?_
  rintro r s2 ⟨hlen, hsame⟩
  obtain ⟨-, -, href, hlocked, -⟩ := Inode.base_inj (hsame.entry (s.file f).ip)
  rw [hip] at href hlocked
  simp only [wp_setFile, iunlock, wp_bind, wp_getInode, wp_ite, wp_panic, wp_setInode, wp_pure]
  rw [if_neg]
  · rw [← hlh]
    exact hlen
  · rintro (hunlocked | hlt)
    · cases (hlocked.trans hl).symm.trans hunlocked
    · exact absurd (href.symm ▸ hr) (not_le.mpr hlt)

def f0 : Fin NFILE := ⟨0, by decide⟩

/-- The demo image with its file of one block open, for two processes say, at offset 0. -/
def demoFile : State :=
  { (demoOpen.setIp e1 { demoOpen.inode e1 with locked := false }).setF f0
      ⟨.inode, 2, true, true, 0, e1, 0, 0⟩ with outstanding := 0 }

theorem demoFile_inv : Inv Mkfs.sb demoFile (procRefs (boot demoImage)) := by
  have hunlocked : Inv Mkfs.sb (demoOpen.setIp e1 { demoOpen.inode e1 with locked := false })
      (update (procRefs (boot demoImage)) e1 1) := by
    exact demoOpen_inv.recount (by decide) (demoOpen_inv.refs e1) fun _ _ => rfl
  have hopen : Inv Mkfs.sb ((demoOpen.setIp e1 { demoOpen.inode e1 with locked := false }).setF f0
      ⟨.inode, 2, true, true, 0, e1, 0, 0⟩) (procRefs (boot demoImage)) := by
    refine hunlocked.setF (fun e => ?_) (fun h => absurd h (by decide)) fun _ => by decide
    by_cases he : e = e1
    · subst he
      decide
    · rw [update_of_ne he]
      simp [File.refTo, demoOpen, boot, Ne.symm he, State.setIp]
  exact hopen.congr rfl rfl rfl

theorem filewrite_fits_reservation_demo : ∃ s',
    filewriteBody Mkfs.sb f0 (.kernel fun _ => 7) 5000 0 demoFile = .ok (3072, s') ∧
      s'.lh.length ≤ MAXOPBLOCKS := by
  obtain ⟨s', hrun⟩ : ∃ s',
      filewriteBody Mkfs.sb f0 (.kernel fun _ => 7) 5000 0 demoFile = .ok (3072, s') :=
    ok_of_toOption (by decide +kernel)
  have hfile : demoFile.lh = [] ∧ (demoFile.file f0).ip = e1 ∧ (demoFile.inode e1).valid = true ∧
      0 < (demoFile.inode e1).ref := by decide
  have hinv := demoFile_inv
  -- the state is not to be evaluated again
  generalize demoFile = s at *
  obtain ⟨hlh, hip, hv, hr⟩ := hfile
  have hfits := (filewrite_fits_reservation Mkfs.sb s f0 (.kernel fun _ => 7) 5000 0 (by
    rw [hip, foundDin, if_pos hv]
    exact noHole_of_inv hinv hr hv)).result hrun
  rw [hlh] at hfits
  exact ⟨s', hrun, hfits⟩

end Xv6.Fs
